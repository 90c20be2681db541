import Fafo.Compaction
import Fafo.ReadSpecs

/-! One fold among writers, resolvers and compactions: whatever they do between its reads, it
returns a genuine prefix. -/
namespace Fafo

open Interleave

variable {ι τ β δ : Type} [LinearOrder ι] [DecidableEq τ]

section Race

variable (M : Images β δ) (live : τ → Prop)

/-- One step of the environment; `live` says which transactions are ever committed. Entries appear
at free slots, and go when their transaction is aborted or never commits; outcomes are created
once; bases are published as folds of the committed prefix; other keys change freely. -/
inductive EnvStep : LogWorld ι τ β δ → LogWorld ι τ β δ → Prop
  | entry (w : LogWorld ι τ β δ) (id : ι) (seq : Nat) (b : Blob τ β δ)
      (hfree : w.get (.log id seq) = none) : EnvStep w (w.effect (.put (.log id seq) b))
  | outcome (w : LogWorld ι τ β δ) (txn : τ) (v : Bool)
      (hfree : w.get (.outcome txn) = none) :
      EnvStep w (w.effect (.put (.outcome txn) (.verdict v)))
  | clear (w : LogWorld ι τ β δ) (id : ι) (seq : Nat)
      (hdead : ∀ e, entryAt w id seq = some e → verdict w e.txn = some false ∨ ¬ live e.txn) :
      EnvStep w (w.effect (.delete (.log id seq)))
  | publish (w : LogWorld ι τ β δ) (id : ι) (n : Nat) (img : β)
      (hfree : w.get (.base id n) = none) (himg : ImageOf M w id img n) :
      EnvStep w (w.effect (.put (.base id n) (.image img)))
  | aside (w w' : LogWorld ι τ β δ) (hlog : ∀ id seq, w'.get (.log id seq) = w.get (.log id seq))
      (hout : ∀ txn, w'.get (.outcome txn) = w.get (.outcome txn))
      (hbase : ∀ id n, w'.get (.base id n) = w.get (.base id n)) : EnvStep w w'

/-- Any number of steps. -/
abbrev EnvSteps : LogWorld ι τ β δ → LogWorld ι τ β δ → Prop :=
  Relation.ReflTransGen (EnvStep M live)

/-- Bases are folds of committed runs, and only live transactions are committed. -/
structure Calm (id : ι) (w : LogWorld ι τ β δ) : Prop where
  folds : BasesFold M w id
  lively : ∀ txn, verdict w txn = some true → live txn

variable {M live} {w w' : LogWorld ι τ β δ}

theorem EnvStep.decided (h : EnvStep M live w w') (txn : τ) (v : Bool)
    (hv : verdict w txn = some v) : verdict w' txn = some v := by
  unfold verdict at hv ⊢
  cases h with
  | entry id seq b hfree => simpa [World.get_put] using hv
  | outcome x b hfree =>
    rw [World.get_put, if_neg]
    · exact hv
    · rintro heq
      cases heq
      rw [hfree] at hv
      cases hv
  | clear id seq hdead => simpa [World.get_delete] using hv
  | publish id n img hfree himg => simpa [World.get_put] using hv
  | aside _ hlog hout hbase => rwa [hout]

theorem EnvStep.based (h : EnvStep M live w w') (id : ι) (n : Nat) (b : Blob τ β δ)
    (hb : w.get (.base id n) = some b) : w'.get (.base id n) = some b := by
  cases h with
  | entry i seq b' hfree => simpa [World.get_put] using hb
  | outcome x v hfree => simpa [World.get_put] using hb
  | clear i seq hdead => simpa [World.get_delete] using hb
  | publish i m img hfree himg =>
    rw [World.get_put, if_neg]
    · exact hb
    · rintro heq
      cases heq
      rw [hfree] at hb
      cases hb
  | aside _ hlog hout hbase => rwa [hbase]

/-- An entry stays, or its transaction was aborted, or it never commits. -/
theorem EnvStep.dropped (h : EnvStep M live w w') (id : ι) (seq : Nat) (e : LogEntry τ β δ)
    (he : entryAt w id seq = some e) :
    entryAt w' id seq = some e ∨ verdict w e.txn = some false ∨ ¬ live e.txn := by
  have hput : ∀ k b, (∀ i s, k = Key.log i s → w.get k = none) →
      entryAt (w.effect (.put k b)) id seq = some e := by
    intro k b hfree
    unfold entryAt at he ⊢
    rw [World.get_put, if_neg]
    · exact he
    · rintro rfl
      rw [hfree id seq rfl] at he
      cases he
  cases h with
  | entry i s b hfree => exact .inl (hput _ b fun _ _ _ => hfree)
  | outcome x v hfree => exact .inl (hput _ _ fun _ _ h => by cases h)
  | publish i n img hfree himg => exact .inl (hput _ _ fun _ _ h => by cases h)
  | aside _ hlog hout hbase =>
    left
    unfold entryAt at he ⊢
    rwa [hlog]
  | clear i s hdead =>
    by_cases hslot : id = i ∧ seq = s
    · obtain ⟨rfl, rfl⟩ := hslot
      exact .inr (hdead e he)
    · left
      rwa [entryAt_unlock, if_neg hslot]

/-- A committed entry stays. -/
theorem EnvStep.settled {id : ι} (h : EnvStep M live w w') (hw : Calm M live id w) (i : ι)
    (seq : Nat) (e : LogEntry τ β δ) (he : entryAt w i seq = some e)
    (hv : verdict w e.txn = some true) : entryAt w' i seq = some e := by
  rcases h.dropped i seq e he with hstays | hfalse | hdead
  · exact hstays
  · rw [hv] at hfalse
    cases hfalse
  · exact absurd (hw.lively e.txn hv) hdead

theorem EnvStep.imageOf {id : ι} (h : EnvStep M live w w') (hw : Calm M live id w) {i : ι}
    {img : β} {n : Nat} (himg : ImageOf M w i img n) : ImageOf M w' i img n := by
  obtain ⟨ps, hlen, hrun, hfold⟩ := himg
  refine ⟨ps, hlen, fun j p hj => ?_, hfold⟩
  obtain ⟨e, he, hv, rfl⟩ := hrun j p hj
  exact ⟨e, h.settled hw i _ e he hv, h.decided e.txn true hv, rfl⟩

theorem EnvStep.basesFold {id : ι} (h : EnvStep M live w w') (hw : Calm M live id w) :
    BasesFold M w' id := by
  intro n b hb
  have hold : w.get (.base id n) = some b → ImageOf M w' id (imageBytes M b) n :=
    fun hb => h.imageOf hw (hw.folds n b hb)
  cases h with
  | entry i seq b' hfree => exact hold (by simpa [World.get_put] using hb)
  | outcome x v hfree => exact hold (by simpa [World.get_put] using hb)
  | clear i seq hdead => exact hold (by simpa [World.get_delete] using hb)
  | aside _ hlog hout hbase => exact hold (by rwa [← hbase])
  | publish i m img hfree himg =>
    rw [World.get_put] at hb
    split at hb
    · next heq =>
      cases heq
      cases hb
      exact EnvStep.imageOf (.publish w id n img hfree himg) hw himg
    · exact hold hb

/-- A step after which only live transactions are committed. -/
def LiveStep (M : Images β δ) (live : τ → Prop) (w w' : LogWorld ι τ β δ) : Prop :=
  EnvStep M live w w' ∧ ∀ txn, verdict w' txn = some true → live txn

theorem liveSteps_calm {id : ι} (h : Relation.ReflTransGen (LiveStep M live) w w')
    (hw : Calm M live id w) : Calm M live id w' := by
  induction h with
  | refl => exact hw
  | tail _ hstep ih => exact ⟨hstep.1.basesFold ih, hstep.2⟩

theorem liveSteps_decided (h : Relation.ReflTransGen (LiveStep M live) w w') (txn : τ) (v : Bool)
    (hv : verdict w txn = some v) : verdict w' txn = some v := by
  induction h with
  | refl => exact hv
  | tail _ hstep ih => exact hstep.1.decided txn v ih

theorem liveSteps_held (h : Relation.ReflTransGen (LiveStep M live) w w') {id : ι} {seq : Nat}
    {e : LogEntry τ β δ} (he : entryAt w id seq = some e) (hlive : live e.txn)
    (hopen : verdict w' e.txn ≠ some false) : entryAt w' id seq = some e := by
  induction h with
  | refl => exact he
  | tail _ hstep ih =>
    have hbefore := fun hfalse => hopen (hstep.1.decided e.txn false hfalse)
    rcases hstep.1.dropped id seq e (ih hbefore) with hstays | hfalse | hdead
    · exact hstays
    · exact absurd hfalse hbefore
    · exact absurd hlive hdead

/-- Steps of the environment are within what a reader needs. -/
theorem stable_liveSteps (M : Images β δ) (live : τ → Prop) (id : ι) :
    Stable M id (Calm M live id) (Relation.ReflTransGen (LiveStep M live)) where
  kept := liveSteps_calm
  folds hw := hw.folds
  decided := liveSteps_decided
  based h n b hb := by
    induction h with
    | refl => exact hb
    | tail _ hstep ih => exact hstep.1.based id n b ih
  held {w w'} h hw seq e he hv := by
    have hlive : live e.txn := (liveSteps_calm h hw).lively e.txn hv
    refine liveSteps_held h he hlive fun hfalse => ?_
    rw [hv] at hfalse
    cases hfalse

/-- Runs among environment steps are runs among live ones, if only live transactions are committed
at the end. -/
theorem envSteps_live (h : EnvSteps M live w w')
    (hlive : ∀ txn, verdict w' txn = some true → live txn) :
    (∀ txn, verdict w txn = some true → live txn) ∧
      Relation.ReflTransGen (LiveStep M live) w w' := by
  induction h using Relation.ReflTransGen.head_induction_on with
  | refl => exact ⟨hlive, .refl⟩
  | head hstep _ ih =>
    obtain ⟨hnext, hsteps⟩ := ih
    exact ⟨fun txn hv => hnext txn (hstep.decided txn true hv), .head ⟨hstep, hnext⟩ hsteps⟩

theorem raced_live {α : Type} {p : NotedTask ι τ β δ α} {a : α} (hp : p.Only NodeOp.IsRead)
    (hr : Raced reliable (EnvSteps M live) p w a w')
    (hlive : ∀ txn, verdict w' txn = some true → live txn) :
    (∀ txn, verdict w txn = some true → live txn) ∧
      Raced reliable (Relation.ReflTransGen (LiveStep M live)) p w a w' := by
  induction hr with
  | ret h =>
    obtain ⟨hw, hsteps⟩ := envSteps_live h hlive
    exact ⟨hw, .ret hsteps⟩
  | @call o k s t u a e h hk ih =>
    obtain ⟨hafter, hrest⟩ := ih (hp.2 _) hlive
    have hsame : (reliable.exec e o t).2 = t := exec_read _ hp.1 t
    rw [hsame] at hafter
    obtain ⟨hw, hsteps⟩ := envSteps_live h hafter
    exact ⟨hw, .call e hsteps hrest⟩

/-- A fold that returns among such steps returns the image of a committed prefix, no shorter than
the one it started from; and `committed_seq` the length of one. -/
theorem racing_fold_genuine (M : Images β δ) (id : ι) (w w' : LogWorld ι τ β δ)
    (hbases : BasesFold M w id) :
    (∀ img n, Raced reliable (EnvSteps M fun txn => verdict w' txn = some true)
        (foldCommitted M id) w (.ok (img, n)) w' →
      ImageOf M w' id img n ∧ ∀ m, CommittedTo w id m → m ≤ n) ∧
    (∀ n, Raced reliable (EnvSteps M fun txn => verdict w' txn = some true)
        (committedSeq M id) w (.ok n) w' →
      CommittedTo w' id n ∧ ∀ m, CommittedTo w id m → m ≤ n) := by
  refine ⟨fun img n hr => ?_, fun n hr => ?_⟩
  · obtain ⟨hlively, hraced⟩ := raced_live (onlyReads_foldCommitted M id) hr fun _ hv => hv
    have hspec : ∀ m, CommittedTo w id m → ImageOf M w' id img n ∧ m ≤ n := fun m hm =>
      (observes_foldCommitted (A := fun _ _ _ _ => True) (stable_liveSteps M _ id) m
        ⟨hbases, hlively⟩ hm none).raced (fun _ _ _ _ => trivial) hraced img n rfl
    exact ⟨(hspec 0 (committedTo_zero w id)).1, fun m hm => (hspec m hm).2⟩
  · obtain ⟨hlively, hraced⟩ := raced_live (onlyReads_committedSeq M id) hr fun _ hv => hv
    have hspec : ∀ m, CommittedTo w id m → CommittedTo w' id n ∧ m ≤ n := fun m hm =>
      (observes_committedSeq (A := fun _ _ _ _ => True) (stable_liveSteps M _ id) m
        ⟨hbases, hlively⟩ hm none).raced (fun _ _ _ _ => trivial) hraced n rfl
    exact ⟨(hspec 0 (committedTo_zero w id)).1, fun m hm => (hspec m hm).2⟩

end Race

/-- The pending third entry of the short log commits before the fold lists the log. -/
def shortLogCommitted : LogWorld Nat Nat Nat Nat :=
  shortLogBased.effect (.put (.outcome 2) (.verdict true))

theorem racing_fold_genuine_shortLog :
    ImageOf counterYard.images shortLogCommitted 0 7 3 ∧
      ∀ m, CommittedTo shortLogBased 0 m → m ≤ 3 :=
  (racing_fold_genuine counterYard.images 0 shortLogBased shortLogCommitted
    basesFold_shortLog).1 7 3
    (Raced.solo reliable calm (fun _ => Relation.ReflTransGen.refl)
      (foldCommitted counterYard.images 0) 0
      (Relation.ReflTransGen.single (EnvStep.outcome shortLogBased 2 true rfl)))

end Fafo
