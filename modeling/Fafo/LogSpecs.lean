import Fafo.ReadSpecs

/-! What each log operation achieves while any number of other tasks run. -/
namespace Fafo

open Interleave

variable {ι τ β δ α : Type} [LinearOrder ι] [DecidableEq τ]

section Specs

variable (M : Images β δ) (watched : τ → List ι)

/-- The two conditions on a step. -/
def Steady (_ : Env) (last : Option (Event (nodeSig (Key ι τ) (Blob τ β δ) (Note ι τ β))))
    (o : NodeOp (Key ι τ) (Blob τ β δ) (Note ι τ β)) (w : LogWorld ι τ β δ) : Prop :=
  DeletesWhatItRead last o w ∧ CommitsBetweenReads watched o w

/-- `who` runs the program within its guarantee. -/
abbrev Runs (who : τ) (Q : α → LogWorld ι τ β δ → Prop) (p : NotedTask ι τ β δ α)
    (w : LogWorld ι τ β δ) : Prop :=
  Does reliable (Steady watched) (Rely M watched who) (Guarantee M watched who) Q p w

/-- `who` runs the program and disturbs no one, itself included. -/
abbrev Reads (who : τ) (Q : α → LogWorld ι τ β δ → Prop) (p : NotedTask ι τ β δ α)
    (w : LogWorld ι τ β δ) : Prop :=
  Does reliable (Steady watched) (Rely M watched who) (Quiet M watched) Q p w

variable {M watched} {who : τ}

/-- A quiet program leads to a state its task may rely on from where it began. -/
theorem Reads.since {Q : α → LogWorld ι τ β δ → Prop} {p : NotedTask ι τ β δ α}
    {w : LogWorld ι τ β δ} (h : Reads M watched who Q p w) :
    Reads M watched who (fun a t => Q a t ∧ Rely M watched who w t) p w :=
  h.frame (fun _ _ hst hs => hs.trans hst) (fun _ _ hst hs => hs.trans hst.rely) (Std.Refl.refl w)

theorem Reads.runs {Q : α → LogWorld ι τ β δ → Prop} {p : NotedTask ι τ β δ α}
    {w : LogWorld ι τ β δ} (h : Reads M watched who Q p w) :
    Runs M watched who (fun a t => Q a t ∧ Rely M watched who w t) p w :=
  h.since.conseq (fun _ _ => id) (fun _ _ => Quiet.guarantee) (fun _ _ => id)

theorem rely_sound (w w' : LogWorld ι τ β δ) (h : Rely M watched who w w')
    (hs : Sound M watched w) : Sound M watched w' := h.1.sound hs

/-- The other tasks are within what a reader needs. -/
theorem rely_stable (id : ι) : Stable M id (Sound M watched) (Rely M watched who) where
  kept h := rely_sound _ _ h
  folds hs n b hb := hs.bases id n b hb
  decided h := h.1.grows.decided
  based h := h.1.grows.based id
  held h hs seq e he hv :=
    (h.1.grows.dropped id seq e he).resolve_right ((rely_sound _ _ h hs).not_doomed hv)

theorem Reads.of_observes {Q : α → LogWorld ι τ β δ → Prop} {p : NotedTask ι τ β δ α}
    {w : LogWorld ι τ β δ} (h : Observes (Steady watched) (Rely M watched who) Q p w) :
    Reads M watched who Q p w :=
  h.conseq (fun _ _ h => h) (fun s _ h => h ▸ quiet_refl s) (fun _ _ h => h)

theorem reads_readBase (id : ι) {w : LogWorld ι τ β δ} (hs : Sound M watched w) :
    Reads M watched who (fun r t => ∀ x, r = .ok x → ImageOf M t id x.1 x.2) (readBase M id) w :=
  .of_observes (observes_readBase (rely_stable id) hs)

/-- What the outcome key says is, and stays, the verdict. -/
theorem reads_outcome (txn : τ) (w : LogWorld ι τ β δ) :
    Reads M watched who (fun r t => ∃ v, r = .ok v ∧ (∀ b, v = some b → verdict t txn = some b) ∧
      ∀ b, verdict w txn = some b → v = some b) (outcome txn) w :=
  .of_observes (observes_outcome (fun h => h.1.grows.decided) txn w)

theorem reads_committed (txn : τ) (w : LogWorld ι τ β δ) :
    Reads M watched who (fun c t => (c = true → verdict t txn = some true) ∧
      (verdict w txn = some true → c = true)) (committed txn) w :=
  .of_observes (observes_committed (fun h => h.1.grows.decided) txn w)

/-- The highest committed seq is committed, and at least what was committed before. -/
theorem reads_committedSeq (id : ι) (bound : Nat) {w : LogWorld ι τ β δ}
    (hs : Sound M watched w) (hbound : CommittedTo w id bound) :
    Reads M watched who (fun r t => ∀ n, r = .ok n → CommittedTo t id n ∧ bound ≤ n)
      (committedSeq M id) w :=
  .of_observes (observes_committedSeq (rely_stable id) bound hs hbound)

/-- A fold is the image of a committed prefix, and covers what was committed when it began. -/
theorem reads_foldCommitted (id : ι) (bound : Nat) {w : LogWorld ι τ β δ}
    (hs : Sound M watched w) (hbound : CommittedTo w id bound) :
    Reads M watched who (fun r t => ∀ img n, r = .ok (img, n) → ImageOf M t id img n ∧ bound ≤ n)
      (foldCommitted M id) w :=
  .of_observes (observes_foldCommitted (rely_stable id) bound hs hbound)

end Specs

end Fafo
