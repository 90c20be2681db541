import Fafo.Outcome
import Fafo.Tasks

/-! What the tasks may do to each other's log entries, and the invariant of the log they keep. -/
namespace Fafo

open Interleave

variable {ι τ β δ : Type} [LinearOrder ι] [DecidableEq τ]

def entryAt (w : LogWorld ι τ β δ) (id : ι) (seq : Nat) : Option (LogEntry τ β δ) :=
  (w.get (.log id seq)).bind decodeEntry

/-- The slot holds an entry of `txn`. -/
def Holds (w : LogWorld ι τ β δ) (id : ι) (seq : Nat) (txn : τ) : Prop :=
  ∃ e, entryAt w id seq = some e ∧ e.txn = txn

/-- The slots `1 .. ps.length` hold committed entries with the payloads `ps`. -/
def CommittedRun (w : LogWorld ι τ β δ) (id : ι) (ps : List (LogPayload β δ)) : Prop :=
  ∀ j p, ps[j]? = some p →
    ∃ e, entryAt w id (j + 1) = some e ∧ verdict w e.txn = some true ∧ e.payload = p

def CommittedTo (w : LogWorld ι τ β δ) (id : ι) (n : Nat) : Prop :=
  ∃ ps, ps.length = n ∧ CommittedRun w id ps

/-- `img` is what the first `n` entries, all committed, fold to. -/
def ImageOf (M : Images β δ) (w : LogWorld ι τ β δ) (id : ι) (img : β) (n : Nat) : Prop :=
  ∃ ps, ps.length = n ∧ CommittedRun w id ps ∧ fold M M.empty ps = .ok img

/-- The images are folds of committed prefixes, and no committed transaction is in one prefix but
not in another one that it also wrote to. -/
structure Cut (M : Images β δ) (watched : List ι) (w : LogWorld ι τ β δ)
    (conns : List (ι × β × Nat)) : Prop where
  image : ∀ id img n, conns.lookup id = some (img, n) → ImageOf M w id img n
  whole : ∀ a ∈ watched, ∀ b ∈ watched, ∀ x y, conns.lookup a = some x → conns.lookup b = some y →
    ∀ txn s t, verdict w txn = some true → Holds w a s txn → Holds w b t txn →
      (s ≤ x.2 ↔ t ≤ y.2)

/-- The reader has started the fold that decides which image of `id` it uses. -/
def Folding (w : LogWorld ι τ β δ) (reader : τ) (id : ι) : Prop :=
  ∃ rest, Note.folding reader id rest ∈ w.notes ∧ id ∉ rest

/-- The reader has ended the fold that decides which image of `id` it uses. -/
def Folded (w : LogWorld ι τ β δ) (reader : τ) (id : ι) : Prop :=
  ∃ rest, Note.folded reader id rest ∈ w.notes ∧ id ∉ rest

/-- The transaction was aborted, or its boat has given up. -/
def Doomed (w : LogWorld ι τ β δ) (txn : τ) : Prop :=
  verdict w txn = some false ∨ Note.abandoned txn ∈ w.notes

def holder (b : Blob τ β δ) : Option τ := (decodeEntry b).map (·.txn)

/-- What the last operation read, if it was a read. -/
def lastRead : Option (Event (nodeSig (Key ι τ) (Blob τ β δ) (Note ι τ β))) → Option (Blob τ β δ)
  | some ⟨.store (.get _), .ok b⟩ => b
  | _ => none

/-- A lock is deleted only while the slot still holds an entry of the transaction that the get
just before the delete saw there. -/
def DeletesWhatItRead (last : Option (Event (nodeSig (Key ι τ) (Blob τ β δ) (Note ι τ β))))
    (o : NodeOp (Key ι τ) (Blob τ β δ) (Note ι τ β)) (w : LogWorld ι τ β δ) : Prop :=
  match o with
  | .store (.delete (.log id seq)) =>
    ∀ held, w.get (.log id seq) = some held → (lastRead last).bind holder = holder held
  | _ => True

/-- A transaction does not commit while a reader is between two objects it writes to: one fold
started, the other not ended. -/
def CommitsBetweenReads (watched : τ → List ι)
    (o : NodeOp (Key ι τ) (Blob τ β δ) (Note ι τ β)) (w : LogWorld ι τ β δ) : Prop :=
  match o with
  | .store (.create (.outcome txn) (.verdict true)) =>
    verdict w txn = none → ∀ r, ∀ a ∈ watched r, ∀ b ∈ watched r, a ≠ b → ∀ s t,
      Holds w a s txn → Holds w b t txn → Folding w r a → Folded w r b
  | _ => True

/-- Entries stand on committed prefixes, one to a transaction and object; bases are images of
committed prefixes; committed transactions have every entry they were told of; boats that gave up
never commit; and readers have consistent cuts. -/
structure Sound (M : Images β δ) (watched : τ → List ι) (w : LogWorld ι τ β δ) : Prop where
  stacked : ∀ id seq e, entryAt w id seq = some e → ∃ n, seq = n + 1 ∧ CommittedTo w id n
  single : ∀ id s t txn, Holds w id s txn → Holds w id t txn → s = t
  bases : ∀ id n b, w.get (.base id n) = some b → ImageOf M w id (imageBytes M b) n
  recorded : ∀ txn id seq, Note.prewritten txn id seq ∈ w.notes → verdict w txn = some true →
    Holds w id seq txn
  lost : ∀ txn, Note.abandoned txn ∈ w.notes → verdict w txn ≠ some true
  cuts : ∀ r conns, Note.queried r conns ∈ w.notes → Cut M (watched r) w conns

theorem sound_empty (M : Images β δ) (watched : τ → List ι) :
    Sound M watched ({} : LogWorld ι τ β δ) where
  stacked _ _ _ h := by cases h
  single _ _ _ _ h := by cases h.choose_spec.1
  bases _ _ _ h := by cases h
  recorded _ _ _ h := by cases h
  lost _ h := by cases h
  cuts _ _ h := by cases h

theorem Sound.not_doomed {M : Images β δ} {watched : τ → List ι} {w : LogWorld ι τ β δ}
    (h : Sound M watched w) {txn : τ} (hv : verdict w txn = some true) : ¬ Doomed w txn := by
  rintro (hf | hn)
  · rw [hv] at hf
    cases hf
  · exact h.lost txn hn hv

/-- The log only grows: decisions and notes stay, committed entries stay and none appears, an
entry goes only when its transaction is doomed, and bases stay. -/
structure Grows (w w' : LogWorld ι τ β δ) : Prop where
  decided : ∀ txn v, verdict w txn = some v → verdict w' txn = some v
  settled : ∀ id seq e, entryAt w id seq = some e → verdict w e.txn = some true →
    entryAt w' id seq = some e
  closed : ∀ id seq e, entryAt w' id seq = some e → verdict w e.txn = some true →
    entryAt w id seq = some e
  dropped : ∀ id seq e, entryAt w id seq = some e → entryAt w' id seq = some e ∨ Doomed w' e.txn
  based : ∀ id n b, w.get (.base id n) = some b → w'.get (.base id n) = some b
  remembered : ∀ n, n ∈ w.notes → n ∈ w'.notes

theorem Grows.doomed {w w' : LogWorld ι τ β δ} (h : Grows w w') {txn : τ} (hd : Doomed w txn) :
    Doomed w' txn := hd.imp (h.decided txn false) (h.remembered _)

theorem grows_refl (w : LogWorld ι τ β δ) : Grows w w :=
  ⟨fun _ _ h => h, fun _ _ _ h _ => h, fun _ _ _ h _ => h, fun _ _ _ => .inl, fun _ _ _ h => h,
    fun _ h => h⟩

theorem Grows.trans {w w' w'' : LogWorld ι τ β δ} (h : Grows w w') (h' : Grows w' w'') :
    Grows w w'' where
  decided txn v hv := h'.decided txn v (h.decided txn v hv)
  settled id seq e he hv := h'.settled id seq e (h.settled id seq e he hv) (h.decided _ _ hv)
  closed id seq e he hv := h.closed id seq e (h'.closed id seq e he (h.decided _ _ hv)) hv
  dropped id seq e he := by
    rcases h.dropped id seq e he with he' | hd
    · exact h'.dropped id seq e he'
    · exact .inr (h'.doomed hd)
  based id n b hb := h'.based id n b (h.based id n b hb)
  remembered n hn := h'.remembered n (h.remembered n hn)

theorem CommittedRun.grows {w w' : LogWorld ι τ β δ} (h : Grows w w') {id : ι}
    {ps : List (LogPayload β δ)} (hp : CommittedRun w id ps) : CommittedRun w' id ps := by
  intro j p hj
  obtain ⟨e, he, hv, rfl⟩ := hp j p hj
  exact ⟨e, h.settled id _ e he hv, h.decided _ _ hv, rfl⟩

theorem CommittedTo.grows {w w' : LogWorld ι τ β δ} (h : Grows w w') {id : ι} {n : Nat}
    (hp : CommittedTo w id n) : CommittedTo w' id n := by
  obtain ⟨ps, hn, hps⟩ := hp
  exact ⟨ps, hn, hps.grows h⟩

theorem ImageOf.grows {M : Images β δ} {w w' : LogWorld ι τ β δ} (h : Grows w w') {id : ι}
    {img : β} {n : Nat} (hp : ImageOf M w id img n) : ImageOf M w' id img n := by
  obtain ⟨ps, hn, hps, hf⟩ := hp
  exact ⟨ps, hn, hps.grows h, hf⟩

theorem ImageOf.committedTo {M : Images β δ} {w : LogWorld ι τ β δ} {id : ι} {img : β} {n : Nat}
    (h : ImageOf M w id img n) : CommittedTo w id n := by
  obtain ⟨ps, hn, hps, _⟩ := h
  exact ⟨ps, hn, hps⟩

theorem CommittedTo.entry {w : LogWorld ι τ β δ} {id : ι} {n s : Nat} (h : CommittedTo w id n)
    (hs : 0 < s) (hn : s ≤ n) : ∃ e, entryAt w id s = some e ∧ verdict w e.txn = some true := by
  obtain ⟨ps, rfl, hps⟩ := h
  obtain ⟨j, rfl⟩ : ∃ j, s = j + 1 := ⟨s - 1, by omega⟩
  obtain ⟨e, he, hv, _⟩ := hps j ps[j] (List.getElem?_eq_getElem (by omega))
  exact ⟨e, he, hv⟩

/-- A transaction in a committed prefix is committed. -/
theorem CommittedTo.verdict {w : LogWorld ι τ β δ} {id : ι} {n s : Nat} {txn : τ}
    (h : CommittedTo w id n) (ht : Holds w id s txn) (hs : 0 < s) (hn : s ≤ n) :
    Fafo.verdict w txn = some true := by
  obtain ⟨e, he, hv⟩ := h.entry hs hn
  obtain ⟨e', he', rfl⟩ := ht
  rw [he] at he'
  cases he'
  exact hv

theorem Holds.pos {M : Images β δ} {watched : τ → List ι} {w : LogWorld ι τ β δ}
    {id : ι} {s : Nat} {txn : τ} (ht : Holds w id s txn) (h : Sound M watched w) : 0 < s := by
  obtain ⟨e, he, _⟩ := ht
  obtain ⟨n, rfl, _⟩ := h.stacked id s e he
  omega

/-- An entry of a committed transaction was there when the transaction committed. -/
theorem Grows.holds {w w' : LogWorld ι τ β δ} (h : Grows w w') {id : ι} {s : Nat} {txn : τ}
    (ht : Holds w' id s txn) (hv : verdict w txn = some true) : Holds w id s txn := by
  obtain ⟨e, he, rfl⟩ := ht
  exact ⟨e, h.closed id s e he hv, rfl⟩

/-- Transactions that commit later are in none of the prefixes already read. -/
theorem Cut.grows {M : Images β δ} {watched : List ι} {w w' : LogWorld ι τ β δ}
    (h : Grows w w') (hpos : ∀ id s txn, Holds w' id s txn → 0 < s)
    {conns : List (ι × β × Nat)} (hc : Cut M watched w conns) : Cut M watched w' conns where
  image id img n hl := (hc.image id img n hl).grows h
  whole a ha b hb x y hx hy txn s t hv hs ht := by
    have hlate : ∀ id z u, conns.lookup id = some z → Holds w' id u txn → u ≤ z.2 →
        verdict w txn = some true := by
      intro id z u hz hu hle
      have hto := (hc.image id z.1 z.2 hz).committedTo
      obtain ⟨e, he, hve⟩ := hto.entry (hpos id u txn hu) hle
      obtain ⟨e', he', rfl⟩ := hu
      rw [h.settled id u e he hve] at he'
      cases he'
      exact hve
    have hold : verdict w txn = some true → (s ≤ x.2 ↔ t ≤ y.2) := fun hw =>
      hc.whole a ha b hb x y hx hy txn s t hw (h.holds hs hw) (h.holds ht hw)
    constructor
    · exact fun hle => (hold (hlate a x s hx hs hle)).mp hle
    · exact fun hle => (hold (hlate b y t hy ht hle)).mpr hle

/-- The invariant across a step, given what the step adds. -/
theorem Sound.grows {M : Images β δ} {watched : τ → List ι} {w w' : LogWorld ι τ β δ}
    (hs : Sound M watched w) (h : Grows w w')
    (hentry : ∀ id seq e, entryAt w' id seq = some e →
      entryAt w id seq = some e ∨ ∃ n, seq = n + 1 ∧ CommittedTo w id n)
    (hsingle : ∀ id s t txn, Holds w' id s txn → Holds w' id t txn → s = t)
    (hbase : ∀ id n b, w'.get (.base id n) = some b →
      w.get (.base id n) = some b ∨ ImageOf M w id (imageBytes M b) n)
    (hrec : ∀ txn id seq, Note.prewritten txn id seq ∈ w'.notes → verdict w' txn = some true →
      (Note.prewritten txn id seq ∈ w.notes ∧ verdict w txn = some true) ∨ Holds w' id seq txn)
    (hlost : ∀ txn, Note.abandoned txn ∈ w'.notes → verdict w' txn = some true →
      Note.abandoned txn ∈ w.notes ∧ verdict w txn = some true)
    (hcut : ∀ r conns, Note.queried r conns ∈ w'.notes →
      Note.queried r conns ∈ w.notes ∨ Cut M (watched r) w conns) : Sound M watched w' := by
  have hstacked : ∀ id seq e, entryAt w' id seq = some e →
      ∃ n, seq = n + 1 ∧ CommittedTo w' id n := by
    intro id seq e he
    have hold : ∃ n, seq = n + 1 ∧ CommittedTo w id n := by
      rcases hentry id seq e he with he | hnew
      · exact hs.stacked id seq e he
      · exact hnew
    obtain ⟨n, hn, hto⟩ := hold
    exact ⟨n, hn, hto.grows h⟩
  have hpos : ∀ id s txn, Holds w' id s txn → 0 < s := by
    rintro id s txn ⟨e, he, _⟩
    obtain ⟨n, rfl, _⟩ := hstacked id s e he
    omega
  refine ⟨hstacked, hsingle, ?_, ?_, ?_, ?_⟩
  · intro id n b hb
    rcases hbase id n b hb with hold | hnew
    · exact (hs.bases id n b hold).grows h
    · exact hnew.grows h
  · intro txn id seq hn hv
    rcases hrec txn id seq hn hv with ⟨hold, hvw⟩ | hnew
    · obtain ⟨e, he, rfl⟩ := hs.recorded txn id seq hold hvw
      exact ⟨e, h.settled id seq e he hvw, rfl⟩
    · exact hnew
  · intro txn hn hv
    obtain ⟨hold, hvw⟩ := hlost txn hn hv
    exact hs.lost txn hold hvw
  · intro r conns hq
    rcases hcut r conns hq with hold | hnew
    · exact (hs.cuts r conns hold).grows h hpos
    · exact hnew.grows h hpos

section Contract

variable (M : Images β δ) (watched : τ → List ι)

/-- Every step of every task. -/
structure Evolves (w w' : LogWorld ι τ β δ) : Prop where
  grows : Grows w w'
  sound : Sound M watched w → Sound M watched w'

/-- What a step of another task leaves to `who`: whether it commits, its locks until it is
aborted, its notes, and a commit between its reads. -/
structure Respects (who : τ) (w w' : LogWorld ι τ β δ) : Prop where
  undecided : verdict w' who = some true → verdict w who = some true
  locked : ∀ id seq, Holds w id seq who → Holds w' id seq who ∨ verdict w' who = some false
  unplaced : ∀ id seq, Holds w' id seq who → Holds w id seq who
  noted : ∀ n : Note ι τ β, n.by = who → (n ∈ w'.notes ↔ n ∈ w.notes)
  whole : ∀ a ∈ watched who, ∀ b ∈ watched who, a ≠ b → ∀ txn s t, verdict w' txn = some true →
    Holds w' a s txn → Holds w' b t txn → Folding w who a → ¬ Folded w who b →
      verdict w txn = some true

/-- What a task relies on. -/
def Rely (who : τ) (w w' : LogWorld ι τ β δ) : Prop :=
  Evolves M watched w w' ∧ Respects watched who w w'

/-- What a task guarantees. -/
def Guarantee (who : τ) (w w' : LogWorld ι τ β δ) : Prop :=
  Evolves M watched w w' ∧ ∀ other, other ≠ who → Respects watched other w w'

/-- A step that respects everyone, the task that takes it included. -/
def Quiet (w w' : LogWorld ι τ β δ) : Prop :=
  Evolves M watched w w' ∧ ∀ who, Respects watched who w w'

variable {M watched}

theorem Evolves.trans {w w' w'' : LogWorld ι τ β δ} (h : Evolves M watched w w')
    (h' : Evolves M watched w' w'') : Evolves M watched w w'' :=
  ⟨h.grows.trans h'.grows, fun hs => h'.sound (h.sound hs)⟩

theorem respects_refl (who : τ) (w : LogWorld ι τ β δ) : Respects watched who w w :=
  ⟨id, fun _ _ => .inl, fun _ _ => id, fun _ _ => .rfl, fun _ _ _ _ _ _ _ _ hv _ _ _ _ => hv⟩

theorem quiet_refl (w : LogWorld ι τ β δ) : Quiet M watched w w :=
  ⟨⟨grows_refl w, id⟩, fun who => respects_refl who w⟩

theorem Rely.trans {who : τ} {w w' w'' : LogWorld ι τ β δ} (h : Rely M watched who w w')
    (h' : Rely M watched who w' w'') : Rely M watched who w w'' := by
  refine ⟨h.1.trans h'.1, ?_⟩
  have hnotes : ∀ n : Note ι τ β, n.by = who → (n ∈ w'.notes ↔ n ∈ w.notes) := h.2.noted
  constructor
  · exact fun hv => h.2.undecided (h'.2.undecided hv)
  · intro id seq hl
    rcases h.2.locked id seq hl with hl' | hv
    · exact h'.2.locked id seq hl'
    · exact .inr (h'.1.grows.decided _ _ hv)
  · exact fun id seq hl => h.2.unplaced id seq (h'.2.unplaced id seq hl)
  · exact fun n hn => (h'.2.noted n hn).trans (hnotes n hn)
  · intro a ha b hb hab txn s t hv hs ht hstart hend
    have hfolding : Folding w' who a := by
      obtain ⟨rest, hn, hr⟩ := hstart
      exact ⟨rest, (hnotes (.folding who a rest) rfl).mpr hn, hr⟩
    have hfolded : ¬ Folded w' who b := by
      rintro ⟨rest, hn, hr⟩
      exact hend ⟨rest, (hnotes (.folded who b rest) rfl).mp hn, hr⟩
    have hv' := h'.2.whole a ha b hb hab txn s t hv hs ht hfolding hfolded
    exact h.2.whole a ha b hb hab txn s t hv' (h'.1.grows.holds hs hv')
      (h'.1.grows.holds ht hv') hstart hend

instance (who : τ) : IsTrans (LogWorld ι τ β δ) (Rely M watched who) := ⟨fun _ _ _ => Rely.trans⟩

instance (who : τ) : Std.Refl (Rely (ι := ι) (β := β) (δ := δ) M watched who) :=
  ⟨fun w => ⟨(quiet_refl w).1, respects_refl who w⟩⟩

theorem Quiet.rely {who : τ} {w w' : LogWorld ι τ β δ} (h : Quiet M watched w w') :
    Rely M watched who w w' := ⟨h.1, h.2 who⟩

theorem Quiet.guarantee {who : τ} {w w' : LogWorld ι τ β δ} (h : Quiet M watched w w') :
    Guarantee M watched who w w' := ⟨h.1, fun other _ => h.2 other⟩

/-- One task's guarantee is within the others' rely. -/
theorem Guarantee.rely {who other : τ} (hne : who ≠ other) {w w' : LogWorld ι τ β δ}
    (h : Guarantee M watched other w w') : Rely M watched who w w' := ⟨h.1, h.2 who hne⟩

/-- A step that changes neither log, outcome or base keys nor notes. -/
theorem quiet_of_same {w w' : LogWorld ι τ β δ}
    (hlog : ∀ id seq, w'.get (.log id seq) = w.get (.log id seq))
    (hout : ∀ txn, w'.get (.outcome txn) = w.get (.outcome txn))
    (hbase : ∀ id n, w'.get (.base id n) = w.get (.base id n)) (hnotes : w'.notes = w.notes) :
    Quiet M watched w w' := by
  have hentry : entryAt w' = entryAt w := by
    funext id seq
    simp [entryAt, hlog]
  have hverdict : verdict w' = verdict w := by
    funext txn
    simp [verdict, hout]
  have hgrows : Grows w w' := by
    constructor <;> simp_all
  refine ⟨⟨hgrows, fun hs => hs.grows hgrows ?_ ?_ ?_ ?_ ?_ ?_⟩, fun who => ?_⟩
  · exact fun id seq e he => .inl (hentry ▸ he)
  · simpa only [Holds, hentry] using hs.single
  · exact fun id n b hb => .inl (hbase id n ▸ hb)
  · exact fun txn id seq hn hv => .inl ⟨hnotes ▸ hn, hverdict ▸ hv⟩
  · exact fun txn hn hv => ⟨hnotes ▸ hn, hverdict ▸ hv⟩
  · exact fun r conns hq => .inl (hnotes ▸ hq)
  · constructor <;> simp_all [Holds]

theorem quiet_put_staging (w : LogWorld ι τ β δ) (txn : τ) (id : ι) (b : Blob τ β δ) :
    Quiet M watched w (w.effect (.put (.staging txn id) b)) := by
  apply quiet_of_same <;> simp [World.get_put]

theorem quiet_delete_staging (w : LogWorld ι τ β δ) (txn : τ) (id : ι) :
    Quiet M watched w (w.effect (.delete (.staging txn id))) := by
  apply quiet_of_same <;> simp [World.get_delete]

theorem entryAt_decide (w : LogWorld ι τ β δ) (txn : τ) (v : Bool) (id : ι) (seq : Nat) :
    entryAt (w.effect (.create (.outcome txn) (.verdict v))) id seq = entryAt w id seq := by
  simp [entryAt, World.get_create]

theorem verdict_decide (w : LogWorld ι τ β δ) (txn x : τ) (v : Bool) :
    verdict (w.effect (.create (.outcome txn) (.verdict v))) x =
      if x = txn ∧ verdict w txn = none then some v else verdict w x := by
  unfold verdict
  rw [World.get_create]
  by_cases h : x = txn ∧ w.get (.outcome txn) = none
  · simp [h, isCommitted]
  · rw [if_neg (by simpa using h), if_neg (by simpa using h)]

theorem grows_decide (w : LogWorld ι τ β δ) (txn : τ) (v : Bool) :
    Grows w (w.effect (.create (.outcome txn) (.verdict v))) where
  decided x b h := keeps_create w txn v x b h
  settled id seq e he _ := (entryAt_decide w txn v id seq).trans he
  closed id seq e he _ := (entryAt_decide w txn v id seq) ▸ he
  dropped id seq e he := .inl ((entryAt_decide w txn v id seq).trans he)
  based id n b hb := by simpa [World.get_create] using hb
  remembered _ hn := hn

theorem sound_decide {w : LogWorld ι τ β δ} {txn : τ} {v : Bool}
    (hrec : v = true → verdict w txn = none → ∀ id seq,
      Note.prewritten txn id seq ∈ w.notes → Holds w id seq txn)
    (hopen : v = true → Note.abandoned txn ∉ w.notes) (hs : Sound M watched w) :
    Sound M watched (w.effect (.create (.outcome txn) (.verdict v))) := by
  refine hs.grows (grows_decide w txn v) ?_ ?_ ?_ ?_ ?_ ?_
  · exact fun id seq e he => .inl (entryAt_decide w txn v id seq ▸ he)
  · simpa only [Holds, entryAt_decide] using hs.single
  · exact fun id n b hb => .inl (by simpa [World.get_create] using hb)
  · intro x id seq hn hv
    rw [verdict_decide] at hv
    split at hv
    · next hx =>
      obtain ⟨rfl, hnone⟩ := hx
      cases hv
      obtain ⟨e, he, htxn⟩ := hrec rfl hnone id seq hn
      exact .inr ⟨e, (entryAt_decide w x true id seq).trans he, htxn⟩
    · exact .inl ⟨hn, hv⟩
  · intro x hn hv
    rw [verdict_decide] at hv
    split at hv
    · next hx =>
      obtain ⟨rfl, _⟩ := hx
      cases hv
      exact absurd hn (hopen rfl)
    · exact ⟨hn, hv⟩
  · exact fun r conns hq => .inl hq

theorem holds_decide {w : LogWorld ι τ β δ} {txn : τ} {v : Bool} {id : ι} {seq : Nat} {x : τ} :
    Holds (w.effect (.create (.outcome txn) (.verdict v))) id seq x ↔ Holds w id seq x := by
  simp only [Holds, entryAt_decide]

/-- Aborting a transaction disturbs no one. -/
theorem quiet_abort (w : LogWorld ι τ β δ) (txn : τ) :
    Quiet M watched w (w.effect (.create (.outcome txn) (.verdict false))) := by
  have hback : ∀ x, verdict (w.effect (.create (.outcome txn) (.verdict false))) x = some true →
      verdict w x = some true := by
    intro x hv
    rw [verdict_decide] at hv
    split at hv
    · cases hv
    · exact hv
  refine ⟨⟨grows_decide w txn false, sound_decide (by simp) (by simp)⟩, fun who => ?_⟩
  exact ⟨hback who, fun _ _ h => .inl (holds_decide.mpr h), fun _ _ h => holds_decide.mp h,
    fun _ _ => .rfl, fun _ _ _ _ _ x _ _ hv _ _ _ _ => hback x hv⟩

/-- A task's own commit, once every entry it was told of is in place. -/
theorem guarantee_commit {w : LogWorld ι τ β δ} {who : τ}
    (hrec : verdict w who = none → ∀ id seq,
      Note.prewritten who id seq ∈ w.notes → Holds w id seq who)
    (hopen : Note.abandoned who ∉ w.notes)
    (hgap : CommitsBetweenReads watched (.store (.create (.outcome who) (.verdict true))) w) :
    Guarantee M watched who w (w.effect (.create (.outcome who) (.verdict true))) := by
  refine ⟨⟨grows_decide w who true, sound_decide (fun _ => hrec) fun _ => hopen⟩,
    fun other hne => ?_⟩
  constructor
  · intro hv
    rwa [verdict_decide, if_neg (fun h => hne h.1)] at hv
  · exact fun id seq hl => .inl (holds_decide.mpr hl)
  · exact fun id seq hl => holds_decide.mp hl
  · exact fun n _ => .rfl
  · intro a ha b hb hab txn s t hv hs ht hstart hend
    rw [verdict_decide] at hv
    split at hv
    · next htxn =>
      obtain ⟨rfl, hnone⟩ := htxn
      exact absurd (hgap hnone other a ha b hb hab s t (holds_decide.mp hs) (holds_decide.mp ht)
        hstart) hend
    · exact hv

/-- Publishing the image of a committed prefix disturbs no one. -/
theorem quiet_base {w : LogWorld ι τ β δ} {id : ι} {img : β} {n : Nat}
    (h : ImageOf M w id img n) :
    Quiet M watched w (w.effect (.create (.base id n) (.image img))) := by
  have hentry : ∀ i s, entryAt (w.effect (.create (.base id n) (.image img))) i s = entryAt w i s :=
    fun i s => by simp [entryAt, World.get_create]
  have hverdict : ∀ x, verdict (w.effect (.create (.base id n) (.image img))) x = verdict w x :=
    fun x => by simp [verdict, World.get_create]
  have hgrows : Grows w (w.effect (.create (.base id n) (.image img))) := by
    refine ⟨by simp [hverdict], by simp_all, by simp_all, by simp_all, ?_, fun _ hn => hn⟩
    intro i m b hb
    rw [World.get_create, if_neg]
    · exact hb
    · rintro ⟨heq, hnone⟩
      cases heq
      rw [hnone] at hb
      cases hb
  refine ⟨⟨hgrows, fun hs => hs.grows hgrows ?_ ?_ ?_ ?_ ?_ ?_⟩, fun who => ?_⟩
  · exact fun i s e he => .inl (hentry i s ▸ he)
  · simpa only [Holds, hentry] using hs.single
  · intro i m b hb
    rw [World.get_create] at hb
    split at hb
    · next heq =>
      cases heq.1
      cases hb
      exact .inr h
    · exact .inl hb
  · exact fun txn i s hn hv => .inl ⟨hn, hverdict txn ▸ hv⟩
  · exact fun txn hn hv => ⟨hn, hverdict txn ▸ hv⟩
  · exact fun r conns hq => .inl hq
  · constructor <;> simp_all [Holds, World.effect]

theorem entryAt_lock {w : LogWorld ι τ β δ} {id : ι} {seq : Nat} {e : LogEntry τ β δ}
    (hfree : w.get (.log id seq) = none) (i : ι) (s : Nat) :
    entryAt (w.effect (.create (.log id seq) (.entry e))) i s =
      if i = id ∧ s = seq then some e else entryAt w i s := by
  unfold entryAt
  rw [World.get_create]
  by_cases h : i = id ∧ s = seq
  · obtain ⟨rfl, rfl⟩ := h
    simp [hfree, decodeEntry]
  · rw [if_neg (by simpa [hfree] using h), if_neg h]

theorem entryAt_free {w : LogWorld ι τ β δ} {id : ι} {seq : Nat}
    (hfree : w.get (.log id seq) = none) : entryAt w id seq = none := by
  simp [entryAt, hfree]

/-- An undecided transaction has no entry on an object whose next slot is free. -/
theorem not_holds_of_free {w : LogWorld ι τ β δ} {who : τ} {id : ι} {n s : Nat}
    (hs : Sound M watched w) (hto : CommittedTo w id n) (hfree : w.get (.log id (n + 1)) = none)
    (hopen : verdict w who ≠ some true) : ¬ Holds w id s who := by
  intro h
  have hpos := h.pos hs
  rcases Nat.lt_trichotomy s (n + 1) with hlt | rfl | hgt
  · exact hopen (hto.verdict h hpos (by omega))
  · obtain ⟨e, he, _⟩ := h
    rw [entryAt_free hfree] at he
    cases he
  · obtain ⟨e, he, _⟩ := h
    obtain ⟨m, rfl, hm⟩ := hs.stacked id s e he
    obtain ⟨e', he', _⟩ := hm.entry (Nat.succ_pos n) (by omega)
    rw [entryAt_free hfree] at he'
    cases he'

/-- A task's own lock, on a free slot above a committed prefix. -/
theorem guarantee_lock {w : LogWorld ι τ β δ} {who : τ} {id : ι} {n : Nat} {e : LogEntry τ β δ}
    (htxn : e.txn = who) (hfree : w.get (.log id (n + 1)) = none) (hto : CommittedTo w id n)
    (hopen : verdict w who ≠ some true) :
    Guarantee M watched who w (w.effect (.create (.log id (n + 1)) (.entry e))) := by
  have hentry := entryAt_lock (e := e) hfree
  have hnone := entryAt_free hfree
  have hverdict : ∀ x, verdict (w.effect (.create (.log id (n + 1)) (.entry e))) x = verdict w x :=
    fun x => by simp [verdict, World.get_create]
  have hkeep : ∀ i s e', entryAt w i s = some e' →
      entryAt (w.effect (.create (.log id (n + 1)) (.entry e))) i s = some e' := by
    intro i s e' he
    rw [hentry, if_neg]
    · exact he
    · rintro ⟨rfl, rfl⟩
      rw [hnone] at he
      cases he
  have hback : ∀ i s e', entryAt (w.effect (.create (.log id (n + 1)) (.entry e))) i s = some e' →
      e'.txn ≠ who → entryAt w i s = some e' := by
    intro i s e' he hne
    rw [hentry] at he
    split at he
    · cases he
      exact absurd htxn hne
    · exact he
  have hgrows : Grows w (w.effect (.create (.log id (n + 1)) (.entry e))) := by
    refine ⟨by simp [hverdict], fun i s e' he _ => hkeep i s e' he, ?_,
      fun i s e' he => .inl (hkeep i s e' he), ?_, fun _ hn => hn⟩
    · intro i s e' he hv
      refine hback i s e' he ?_
      rintro rfl
      exact hopen hv
    · exact fun i m b hb => by simpa [World.get_create] using hb
  refine ⟨⟨hgrows, fun hs => hs.grows hgrows ?_ ?_ ?_ ?_ ?_ ?_⟩, fun other hne => ?_⟩
  · intro i s e' he
    rw [hentry] at he
    split at he
    · next h =>
      obtain ⟨rfl, rfl⟩ := h
      exact .inr ⟨n, rfl, hto⟩
    · exact .inl he
  · have hfirst : ∀ s, ¬ Holds w id s who := fun s h => not_holds_of_free hs hto hfree hopen h
    intro i s t txn hs' ht'
    by_cases hne : txn = who ∧ i = id
    · obtain ⟨rfl, rfl⟩ := hne
      have hslot : ∀ u, Holds (w.effect (.create (.log i (n + 1)) (.entry e))) i u txn →
          u = n + 1 := by
        rintro u ⟨e', he, hx⟩
        by_contra hu
        rw [hentry, if_neg (by simp [hu])] at he
        exact hfirst u ⟨e', he, hx⟩
      rw [hslot s hs', hslot t ht']
    · have hold : ∀ u, Holds (w.effect (.create (.log id (n + 1)) (.entry e))) i u txn →
          Holds w i u txn := by
        rintro u ⟨e', he, rfl⟩
        rw [hentry] at he
        split at he
        · next h =>
          cases he
          exact absurd ⟨htxn, h.1⟩ hne
        · exact ⟨e', he, rfl⟩
      exact hs.single i s t txn (hold s hs') (hold t ht')
  · exact fun i m b hb => .inl (by simpa [World.get_create] using hb)
  · exact fun txn i s hn hv => .inl ⟨hn, hverdict txn ▸ hv⟩
  · exact fun txn hn hv => ⟨hn, hverdict txn ▸ hv⟩
  · exact fun r conns hq => .inl hq
  · refine ⟨fun hv => hverdict other ▸ hv, ?_, ?_, fun _ _ => .rfl, ?_⟩
    · rintro i s ⟨e', he, hx⟩
      exact .inl ⟨e', hkeep i s e' he, hx⟩
    · rintro i s ⟨e', he, hx⟩
      exact ⟨e', hback i s e' he (hx ▸ hne), hx⟩
    · exact fun _ _ _ _ _ txn _ _ hv _ _ _ _ => hverdict txn ▸ hv

theorem entryAt_unlock (w : LogWorld ι τ β δ) (id : ι) (seq : Nat) (i : ι) (s : Nat) :
    entryAt (w.effect (.delete (.log id seq))) i s =
      if i = id ∧ s = seq then none else entryAt w i s := by
  unfold entryAt
  rw [World.get_delete]
  by_cases h : i = id ∧ s = seq
  · simp [h]
  · rw [if_neg (by simpa using h), if_neg h]

/-- Clearing a slot whose holder never commits. -/
theorem evolves_unlock {w : LogWorld ι τ β δ} {id : ι} {seq : Nat}
    (h : ∀ e, entryAt w id seq = some e → verdict w e.txn ≠ some true)
    (hd : ∀ e, entryAt w id seq = some e → Doomed w e.txn) :
    Evolves M watched w (w.effect (.delete (.log id seq))) := by
  have hverdict : ∀ x, verdict (w.effect (.delete (.log id seq))) x = verdict w x :=
    fun x => by simp [verdict, World.get_delete]
  have hback : ∀ i s e', entryAt (w.effect (.delete (.log id seq))) i s = some e' →
      entryAt w i s = some e' := by
    intro i s e' he
    rw [entryAt_unlock] at he
    split at he
    · cases he
    · exact he
  have hgrows : Grows w (w.effect (.delete (.log id seq))) := by
    refine ⟨by simp [hverdict], ?_, fun i s e he _ => hback i s e he, ?_, ?_, fun _ hn => hn⟩
    · intro i s e he hv
      rw [entryAt_unlock, if_neg]
      · exact he
      · rintro ⟨rfl, rfl⟩
        exact h e he hv
    · intro i s e he
      by_cases hslot : i = id ∧ s = seq
      · obtain ⟨rfl, rfl⟩ := hslot
        exact .inr ((hd e he).imp (fun hv => (hverdict _).trans hv) (fun hn => hn))
      · exact .inl (by rw [entryAt_unlock, if_neg hslot]; exact he)
    · exact fun i m b hb => by simpa [World.get_delete] using hb
  refine ⟨hgrows, fun hs => hs.grows hgrows ?_ ?_ ?_ ?_ ?_ ?_⟩
  · exact fun i s e he => .inl (hback i s e he)
  · rintro i s t txn ⟨e, he, hx⟩ ⟨e', he', hx'⟩
    exact hs.single i s t txn ⟨e, hback i s e he, hx⟩ ⟨e', hback i t e' he', hx'⟩
  · exact fun i m b hb => .inl (by simpa [World.get_delete] using hb)
  · exact fun txn i s hn hv => .inl ⟨hn, hverdict txn ▸ hv⟩
  · exact fun txn hn hv => ⟨hn, hverdict txn ▸ hv⟩
  · exact fun r conns hq => .inl hq

theorem respects_unlock {w : LogWorld ι τ β δ} {id : ι} {seq : Nat} {other : τ}
    (h : Holds w id seq other → verdict w other = some false) :
    Respects watched other w (w.effect (.delete (.log id seq))) := by
  have hverdict : ∀ x, verdict (w.effect (.delete (.log id seq))) x = verdict w x :=
    fun x => by simp [verdict, World.get_delete]
  refine ⟨fun hv => hverdict other ▸ hv, ?_, ?_, fun _ _ => .rfl, ?_⟩
  · rintro i s ⟨e, he, hx⟩
    by_cases hslot : i = id ∧ s = seq
    · obtain ⟨rfl, rfl⟩ := hslot
      exact .inr ((hverdict other).trans (h ⟨e, he, hx⟩))
    · exact .inl ⟨e, by rw [entryAt_unlock, if_neg hslot]; exact he, hx⟩
  · rintro i s ⟨e, he, hx⟩
    rw [entryAt_unlock] at he
    split at he
    · cases he
    · exact ⟨e, he, hx⟩
  · exact fun _ _ _ _ _ txn _ _ hv _ _ _ _ => hverdict txn ▸ hv

/-- Clearing an aborted transaction's slot disturbs no one. -/
theorem quiet_unlock {w : LogWorld ι τ β δ} {id : ι} {seq : Nat}
    (h : ∀ e, entryAt w id seq = some e → verdict w e.txn = some false) :
    Quiet M watched w (w.effect (.delete (.log id seq))) := by
  refine ⟨evolves_unlock (fun e he => by simp [h e he]) fun e he => .inl (h e he),
    fun who => respects_unlock ?_⟩
  rintro ⟨e, he, rfl⟩
  exact h e he

/-- A task that has given up clears its own slot. -/
theorem guarantee_unlock {w : LogWorld ι τ β δ} {who : τ} {id : ι} {seq : Nat}
    (h : ∀ e, entryAt w id seq = some e → e.txn = who) (hopen : verdict w who ≠ some true)
    (hgone : Note.abandoned who ∈ w.notes) :
    Guarantee M watched who w (w.effect (.delete (.log id seq))) := by
  refine ⟨evolves_unlock ?_ ?_, fun other hne => respects_unlock ?_⟩
  · intro e he
    rw [h e he]
    exact hopen
  · intro e he
    rw [h e he]
    exact .inr hgone
  · rintro ⟨e, he, rfl⟩
    exact absurd (h e he) hne

/-- A task's own note. -/
theorem guarantee_note {w : LogWorld ι τ β δ} {who : τ} {n : Note ι τ β} (hby : n.by = who)
    (hrec : ∀ id seq, n = .prewritten who id seq → verdict w who ≠ some true)
    (hlost : n = .abandoned who → verdict w who ≠ some true)
    (hcut : ∀ conns, n = .queried who conns → Cut M (watched who) w conns) :
    Guarantee M watched who w { w with notes := n :: w.notes } := by
  have hgrows : Grows w { w with notes := n :: w.notes } := ⟨fun _ _ h => h, fun _ _ _ h _ => h,
    fun _ _ _ h _ => h, fun _ _ _ => .inl, fun _ _ _ h => h, fun _ h => List.mem_cons_of_mem _ h⟩
  refine ⟨⟨hgrows, fun hs => hs.grows hgrows (fun _ _ _ => .inl) hs.single
    (fun _ _ _ => .inl) ?_ ?_ ?_⟩,
    fun other hne => ?_⟩
  · intro txn id seq hn hv
    rcases List.mem_cons.mp hn with rfl | hn
    · cases hby
      exact absurd hv (hrec id seq rfl)
    · exact .inl ⟨hn, hv⟩
  · intro txn hn hv
    rcases List.mem_cons.mp hn with rfl | hn
    · cases hby
      exact absurd hv (hlost rfl)
    · exact ⟨hn, hv⟩
  · intro r conns hq
    rcases List.mem_cons.mp hq with rfl | hq
    · cases hby
      exact .inr (hcut conns rfl)
    · exact .inl hq
  · refine ⟨id, fun _ _ => .inl, fun _ _ => id, ?_, fun _ _ _ _ _ _ _ _ hv _ _ _ _ => hv⟩
    intro m hm
    have hmn : m ≠ n := by
      rintro rfl
      exact hne (hm.symm.trans hby)
    simp [hmn]

end Contract

end Fafo
