import Mathlib.Tactic.Linarith
import Mathlib.Tactic.Tauto
import Fafo.ProtosimBooks

/-! The simulated protocol is safe on every schedule. -/
namespace Fafo.Protosim

variable {α τ : Type} [DecidableEq α] [DecidableEq τ]
variable {accounts : List α} {balance : α → Nat} {s s' s'' : Store α τ} {L : Ledger α}

/-- The parts of a worker that never change, for its transfer. -/
structure Carries (tid : τ) (t : Transfer accounts) (x : Xfer α τ) : Prop where
  tid_eq : x.tid = tid
  payer_eq : x.payer = t.payer
  amt_eq : x.amt = t.amt
  sides : (x.low = t.payer ∧ x.high = t.payee ∧ x.lowDelta = -t.amt ∧ x.highDelta = t.amt) ∨
    (x.low = t.payee ∧ x.high = t.payer ∧ x.low ≠ t.payer ∧ x.lowDelta = t.amt ∧
      x.highDelta = -t.amt)

/-- Every entry of the transfer is one the worker remembers making. -/
def Owns (s : Store α τ) (x : Xfer α τ) : Prop :=
  ∀ o seq d, Entry s o seq x.tid d →
    (x.madeLow = true ∧ o = x.low ∧ seq = x.lowSeq + 1 ∧ d = x.lowDelta) ∨
    (x.madeHigh = true ∧ o = x.high ∧ seq = x.highSeq + 1 ∧ d = x.highDelta)

/-- The prefixes the worker has read, at which the payer has the funds. -/
structure Funded (balance : α → Nat) (L : Ledger α) (x : Xfer α τ) : Prop where
  low : x.lowSeq ≤ (L x.low).length
  high : x.highSeq ≤ (L x.high).length
  funds : x.amt ≤ L.valueAt (fun o => balance o) x.payer
    (if x.low = x.payer then x.lowSeq else x.highSeq)

def HasLow (s : Store α τ) (x : Xfer α τ) : Prop := Entry s x.low (x.lowSeq + 1) x.tid x.lowDelta

def HasHigh (s : Store α τ) (x : Xfer α τ) : Prop :=
  Entry s x.high (x.highSeq + 1) x.tid x.highDelta

/-- What holds of the store at each step of the worker. -/
def Status (balance : α → Nat) (s : Store α τ) (L : Ledger α) (x : Xfer α τ) : Prop :=
  match x.step with
  | .read | .aborted => x.madeLow = false ∧ x.madeHigh = false ∧ resolved s x.tid ≠ some true
  | .preLow => x.madeLow = false ∧ x.madeHigh = false ∧ resolved s x.tid ≠ some true ∧
      Funded balance L x
  | .preHigh => x.madeHigh = false ∧ resolved s x.tid ≠ some true ∧ Funded balance L x ∧
      (resolved s x.tid = none → HasLow s x)
  | .commit | .crashed => resolved s x.tid ≠ some true ∧ Funded balance L x ∧
      (resolved s x.tid = none → HasLow s x ∧ HasHigh s x)
  | .done => resolved s x.tid = some true ∧ HasLow s x ∧ HasHigh s x

structure Knows (balance : α → Nat) (s : Store α τ) (L : Ledger α) (tid : τ)
    (t : Transfer accounts) (x : Xfer α τ) : Prop where
  carries : Carries tid t x
  owns : Owns s x
  status : Status balance s L x
  acked : x.ackedCommit = true → x.step = .done

/-- The ledger only grows. -/
def Extends (L L' : Ledger α) : Prop := ∀ o, L o <+: L' o

omit [DecidableEq α] [DecidableEq τ] in
theorem extends_refl (L : Ledger α) : Extends L L := fun o => List.prefix_refl (L o)

omit [DecidableEq α] in
theorem Extends.valueAt {opening : α → Int} {L L' : Ledger α} (h : Extends L L') {o : α} {n : Nat}
    (hn : n ≤ (L o).length) : L'.valueAt opening o n = L.valueAt opening o n := by
  obtain ⟨ds, hds⟩ := h o
  rw [Ledger.valueAt, Ledger.valueAt, ← hds, List.take_append_of_le_length hn]

omit [DecidableEq α] [DecidableEq τ] in
theorem Carries.payer_side {tid : τ} {t : Transfer accounts} {x : Xfer α τ}
    (h : Carries tid t x) : x.low = x.payer ∨ x.high = x.payer := by
  rcases h.sides with ⟨hl, _⟩ | ⟨_, hh, _⟩
  · exact .inl (hl.trans h.payer_eq.symm)
  · exact .inr (hh.trans h.payer_eq.symm)

omit [DecidableEq τ] in
theorem Funded.extends {L L' : Ledger α} (hL : Extends L L') {tid : τ} {t : Transfer accounts}
    {x : Xfer α τ} (hc : Carries tid t x) (h : Funded balance L x) : Funded balance L' x where
  low := h.low.trans (hL x.low).length_le
  high := h.high.trans (hL x.high).length_le
  funds := by
    rw [hL.valueAt]
    · exact h.funds
    · split_ifs with hlow
      · exact hlow ▸ h.low
      · exact (hc.payer_side.resolve_left hlow) ▸ h.high

/-- Another worker's step leaves a worker knowing what it knew. -/
theorem Knows.kept {L L' : Ledger α} {tid : τ} {t : Transfer accounts} {x : Xfer α τ}
    (h : Knows balance s L tid t x) (hk : Kept tid s s') (hL : Extends L L') :
    Knows balance s' L' tid t x := by
  obtain ⟨hc, ho, hst, hack⟩ := h
  have htid := hc.tid_eq
  refine ⟨hc, fun o seq d he => ho o seq d ?_, ?_, hack⟩
  · rw [htid] at he ⊢
    exact hk.appears o seq d he
  · have hf : Funded balance L x → Funded balance L' x := fun hf => hf.extends hL hc
    have hstay : ∀ o seq d, resolved s' x.tid ≠ some false → Entry s o seq x.tid d →
        Entry s' o seq x.tid d := by
      intro o seq d hne he
      rw [htid] at hne he ⊢
      exact (hk.stays o seq d he).resolve_right hne
    have hnone : resolved s' x.tid = none → resolved s x.tid = none := by
      rw [htid]
      exact hk.undecided
    have hopen : resolved s x.tid ≠ some true → resolved s' x.tid ≠ some true := by
      rw [htid]
      exact hk.not_committed
    have hdone : resolved s x.tid = some true → resolved s' x.tid = some true := by
      rw [htid]
      exact hk.decided
    unfold Status at hst ⊢
    cases hstep : x.step <;> simp only [hstep] at hst ⊢
    · exact ⟨hst.1, hst.2.1, hopen hst.2.2⟩
    · exact ⟨hst.1, hst.2.1, hopen hst.2.2.1, hf hst.2.2.2⟩
    · refine ⟨hst.1, hopen hst.2.1, hf hst.2.2.1, fun hn => ?_⟩
      exact hstay _ _ _ (by simp [hn]) (hst.2.2.2 (hnone hn))
    · refine ⟨hopen hst.1, hf hst.2.1, fun hn => ?_⟩
      obtain ⟨hlow, hhigh⟩ := hst.2.2 (hnone hn)
      exact ⟨hstay _ _ _ (by simp [hn]) hlow, hstay _ _ _ (by simp [hn]) hhigh⟩
    · have hd := hdone hst.1
      exact ⟨hd, hstay _ _ _ (by simp [hd]) hst.2.1, hstay _ _ _ (by simp [hd]) hst.2.2⟩
    · exact ⟨hst.1, hst.2.1, hopen hst.2.2⟩
    · refine ⟨hopen hst.1, hf hst.2.1, fun hn => ?_⟩
      obtain ⟨hlow, hhigh⟩ := hst.2.2 (hnone hn)
      exact ⟨hstay _ _ _ (by simp [hn]) hlow, hstay _ _ _ (by simp [hn]) hhigh⟩

/-- What a step of `tid`'s worker leads to: the books of an extended, sound ledger, the worker's own
knowledge, and what the other transfers rely on. -/
structure Stepped (balance : α → Nat) (s : Store α τ) (L : Ledger α) (tid : τ)
    (t : Transfer accounts) (x' : Xfer α τ) (s' : Store α τ) (L' : Ledger α) : Prop where
  grows : Extends L L'
  sound : L'.Sound accounts.toFinset (fun o => balance o)
  books : Books accounts balance s' L'
  knows : Knows balance s' L' tid t x'
  others : ∀ other, other ≠ tid → Kept other s s'

/-- A tid-safe delete that is made only if the worker remembers the entry. -/
theorem Books.deleteIf (h : Books accounts balance s L) (made : Bool) {o : α} {seq : Nat} {tid : τ}
    (hopen : resolved s tid ≠ some true) :
    ∀ s', s' = (if made then Protosim.safeDelete s (.log o seq) tid else s) →
      Books accounts balance s' L ∧ (∀ x, x ≠ tid → Kept x s s') ∧
      (∀ x, resolved s' x = resolved s x) ∧
      ∀ o' seq' d, Entry s' o' seq' tid d ↔
        ¬ (made = true ∧ o' = o ∧ seq' = seq) ∧ Entry s o' seq' tid d := by
  rintro s' rfl
  cases made with
  | true => simpa using h.safeDelete hopen
  | false => exact ⟨h, fun x _ => kept_refl x s, fun _ => rfl, fun _ _ _ => by simp⟩

/-- After a rollback nothing of the transfer is left in the log. -/
theorem Books.rollback (h : Books accounts balance s L) {x : Xfer α τ} (ho : Owns s x)
    (hopen : resolved s x.tid ≠ some true) :
    Books accounts balance (x.rollback s).2 L ∧
      (∀ y, y ≠ x.tid → Kept y s (x.rollback s).2) ∧
      (∀ y, resolved (x.rollback s).2 y = resolved s y) ∧
      ∀ o seq d, ¬ Entry (x.rollback s).2 o seq x.tid d := by
  obtain ⟨hb₁, hk₁, hr₁, he₁⟩ := h.deleteIf x.madeHigh hopen _ rfl
  obtain ⟨hb₂, hk₂, hr₂, he₂⟩ := hb₁.deleteIf x.madeLow (by rwa [hr₁]) (x.rollback s).2 rfl
  refine ⟨hb₂, fun y hy => (hk₁ y hy).trans (hk₂ y hy), fun y => (hr₂ y).trans (hr₁ y), ?_⟩
  intro o seq d he
  obtain ⟨hnotLow, he⟩ := (he₂ o seq d).mp he
  obtain ⟨hnotHigh, he⟩ := (he₁ o seq d).mp he
  rcases ho o seq d he with ⟨hm, hx, hs, _⟩ | ⟨hm, hx, hs, _⟩
  · exact hnotLow ⟨hm, hx, hs⟩
  · exact hnotHigh ⟨hm, hx, hs⟩

variable {tid : τ} {t : Transfer accounts} {x : Xfer α τ}

/-- A worker of whose transfer nothing is left starts over, or gives up. -/
theorem stepped_reset (hsound : L.Sound accounts.toFinset (fun o => balance o))
    (hb : Books accounts balance s L) (hc : Carries tid t x) (ho : Owns s x)
    (hack : x.ackedCommit = false) (hopen : resolved s tid ≠ some true) :
    Stepped balance s L tid t (x.resetOrGiveup s).1 (x.resetOrGiveup s).2 L := by
  have htid := hc.tid_eq
  obtain ⟨hb', hk, hr, hnone⟩ := hb.rollback ho (by rwa [htid])
  refine ⟨extends_refl L, hsound, hb', ?_, fun y hy => hk y (by rwa [htid])⟩
  · refine ⟨⟨htid, hc.payer_eq, hc.amt_eq, hc.sides⟩, fun o seq d he => absurd he (hnone o seq d),
      ?_, ?_⟩
    · have hst : (x.resetOrGiveup s).1.step = .read ∨ (x.resetOrGiveup s).1.step = .aborted := by
        simp only [Xfer.resetOrGiveup]
        split_ifs
        · exact .inr rfl
        · exact .inl rfl
      have hv : resolved (x.resetOrGiveup s).2 (x.resetOrGiveup s).1.tid ≠ some true := by
        change resolved (x.rollback s).2 x.tid ≠ some true
        rw [hr, htid]
        exact hopen
      unfold Status
      rcases hst with hst | hst <;> rw [hst] <;> exact ⟨rfl, rfl, hv⟩
    · intro h
      exact absurd h (by simp [Xfer.resetOrGiveup, Xfer.rollback, hack])

theorem Stepped.after {L' : Ledger α} {x' : Xfer α τ} (h : Stepped balance s' L tid t x' s'' L')
    (hothers : ∀ other, other ≠ tid → Kept other s s') :
    Stepped balance s L tid t x' s'' L' :=
  ⟨h.grows, h.sound, h.books, h.knows,
    fun other hne => (hothers other hne).trans (h.others other hne)⟩

theorem stepped_same (hsound : L.Sound accounts.toFinset (fun o => balance o))
    (hb : Books accounts balance s L) (hk : Knows balance s L tid t x) :
    Stepped balance s L tid t x s L :=
  ⟨extends_refl L, hsound, hb, hk, fun other _ => kept_refl other s⟩

theorem stepped_read (hsound : L.Sound accounts.toFinset (fun o => balance o))
    (hb : Books accounts balance s L) (hk : Knows balance s L tid t x) (hstep : x.step = .read)
    (tick : Tick) : Stepped balance s L tid t (x.next s tick).1 (x.next s tick).2 L := by
  obtain ⟨hc, ho, hst, hack⟩ := hk
  simp only [Status, hstep] at hst
  obtain ⟨hmadeLow, hmadeHigh, hopen⟩ := hst
  have hempty : ∀ o seq d, ¬ Entry s o seq x.tid d := by
    intro o seq d he
    rcases ho o seq d he with ⟨hm, _⟩ | ⟨hm, _⟩
    · rw [hmadeLow] at hm
      cases hm
    · rw [hmadeHigh] at hm
      cases hm
  have hunacked : x.ackedCommit = true → False := by
    intro h
    have := hack h
    rw [hstep] at this
    cases this
  have hmem : x.low ∈ accounts ∧ x.high ∈ accounts ∧ x.payer ∈ accounts := by
    rcases hc.sides with ⟨hl, hh, _⟩ | ⟨hl, hh, _⟩ <;> rw [hl, hh, hc.payer_eq] <;>
      exact ⟨by simp [t.payer_mem, t.payee_mem], by simp [t.payer_mem, t.payee_mem], t.payer_mem⟩
  have hvalue : (if x.low = x.payer then L.value (fun o => balance o) x.low
      else L.value (fun o => balance o) x.payer) = L.value (fun o => balance o) x.payer := by
    split_ifs with h
    · rw [h]
    · rfl
  simp only [Xfer.next, hstep, hb.readCommitted hmem.1, hb.readCommitted hmem.2.1,
    hb.readCommitted hmem.2.2, hvalue]
  split_ifs with hpoor
  · refine stepped_same hsound hb ⟨⟨hc.tid_eq, hc.payer_eq, hc.amt_eq, hc.sides⟩,
      fun o seq d he => absurd he (hempty o seq d), ⟨hmadeLow, hmadeHigh, hopen⟩,
      fun h => absurd (hunacked h) id⟩
  · refine stepped_same hsound hb ⟨⟨hc.tid_eq, hc.payer_eq, hc.amt_eq, hc.sides⟩,
      fun o seq d he => absurd he (hempty o seq d),
      ⟨hmadeLow, hmadeHigh, hopen, le_rfl, le_rfl, ?_⟩, fun h => absurd (hunacked h) id⟩
    dsimp only
    rw [Ledger.valueAt_length]
    · exact not_lt.mp hpoor
    · split_ifs with h
      · rw [h]
      · rw [hc.payer_side.resolve_left h]

omit [DecidableEq α] [DecidableEq τ] in
/-- A pause changes only when the worker resumes, and how often it may pause again. -/
theorem maybePause_eq (x : Xfer α τ) (tick : Tick) :
    ∃ pauses resume, x.maybePause tick = { x with pauseBudget := pauses, resumeAt := resume } := by
  unfold Xfer.maybePause
  split_ifs
  · exact ⟨_, _, rfl⟩
  · exact ⟨x.pauseBudget, x.resumeAt, rfl⟩

/-- A lost create: resolve the slot, and retry or start over. -/
theorem stepped_resolve (hsound : L.Sound accounts.toFinset (fun o => balance o))
    (hb : Books accounts balance s L) (hk : Knows balance s L tid t x)
    (hopen : resolved s tid ≠ some true) (o : α) (seq now : Nat)
    (lost : Xfer α τ → Store α τ → Xfer α τ × Store α τ)
    (hlost : ∀ s', Books accounts balance s' L → Knows balance s' L tid t x →
      resolved s' tid ≠ some true → Stepped balance s' L tid t (lost x s').1 (lost x s').2 L)
    {r : Xfer α τ × Store α τ}
    (hr : r = if (resolveSlot s o seq now).1 then (x, (resolveSlot s o seq now).2)
      else lost x (resolveSlot s o seq now).2) :
    Stepped balance s L tid t r.1 r.2 L := by
  obtain ⟨hb', hkept⟩ := hb.resolveSlot o seq now
  have hk' := hk.kept (hkept tid) (extends_refl L)
  have hafter : ∀ {x' s''}, Stepped balance (resolveSlot s o seq now).2 L tid t x' s'' L →
      Stepped balance s L tid t x' s'' L := fun h =>
    h.after fun other _ => hkept other
  subst hr
  split_ifs
  · exact hafter (stepped_same hsound hb' hk')
  · exact hafter (hlost _ hb' hk' ((hkept tid).not_committed hopen))

theorem stepped_preLow (hsound : L.Sound accounts.toFinset (fun o => balance o))
    (hb : Books accounts balance s L) (hk : Knows balance s L tid t x) (hstep : x.step = .preLow)
    (tick : Tick) : Stepped balance s L tid t (x.next s tick).1 (x.next s tick).2 L := by
  have hc := hk.carries
  have htid := hc.tid_eq
  have hst := hk.status
  simp only [Status, hstep] at hst
  obtain ⟨hmadeLow, hmadeHigh, hopen, hf⟩ := hst
  have hunacked : x.ackedCommit = false := by
    by_contra h
    have := hk.acked (by simpa using h)
    rw [hstep] at this
    cases this
  by_cases hfree : s.get (.log x.low (x.lowSeq + 1)) = none
  · rw [Xfer.next_preLow_free hstep hfree]
    have hb' : Books accounts balance (s.insert (.log x.low (x.lowSeq + 1))
        (.log x.tid x.lowDelta tick.now)) L := hb.lock hfree hf.low hopen
    obtain ⟨pauses, resume, heq⟩ := maybePause_eq { x with madeLow := true } tick
    rw [heq]
    refine ⟨extends_refl L, hsound, hb', ?_, fun y hy => kept_lock hfree (by rwa [htid])⟩
    refine ⟨⟨htid, hc.payer_eq, hc.amt_eq, hc.sides⟩, fun o seq d he => ?_, ?_, ?_⟩
    · rw [entry_lock] at he
      split_ifs at he with hslot
      · exact .inl ⟨rfl, hslot.1, hslot.2, he.2⟩
      · rcases hk.owns o seq d he with ⟨hm, _⟩ | hhigh
        · rw [hmadeLow] at hm
          cases hm
        · exact .inr hhigh
    · refine ⟨hmadeHigh, ?_, ⟨hf.low, hf.high, hf.funds⟩, fun _ => ?_⟩
      · rw [resolved_lock]
        exact hopen
      · exact entry_lock.mpr (by simp)
    · simp [hunacked]
  · rw [Xfer.next_preLow_taken hstep hfree]
    refine stepped_resolve hsound hb hk (by rwa [← htid]) x.low (x.lowSeq + 1) tick.now
      Xfer.resetOrGiveup (fun s' hb' hk' hopen' => ?_) rfl
    exact stepped_reset hsound hb' hk'.carries hk'.owns hunacked hopen'

/-- Starting over after an earlier rollback. -/
theorem stepped_rollback_reset (hsound : L.Sound accounts.toFinset (fun o => balance o))
    (hb : Books accounts balance s L) (hk : Knows balance s L tid t x)
    (hunacked : x.ackedCommit = false) (hopen : resolved s tid ≠ some true) :
    Stepped balance s L tid t ((x.rollback s).1.resetOrGiveup (x.rollback s).2).1
      ((x.rollback s).1.resetOrGiveup (x.rollback s).2).2 L := by
  have hc := hk.carries
  have htid := hc.tid_eq
  obtain ⟨hb', hkept, hr, hnone⟩ := hb.rollback hk.owns (by rwa [htid])
  have hreset : Stepped balance (x.rollback s).2 L tid t _ _ L :=
    stepped_reset (x := (x.rollback s).1) hsound hb' ⟨htid, hc.payer_eq, hc.amt_eq, hc.sides⟩
      (fun o seq d he => absurd he (hnone o seq d)) hunacked (by rwa [hr])
  exact hreset.after fun y hy => hkept y (by rwa [htid])

theorem stepped_preHigh (hsound : L.Sound accounts.toFinset (fun o => balance o))
    (hb : Books accounts balance s L) (hk : Knows balance s L tid t x) (hstep : x.step = .preHigh)
    (tick : Tick) : Stepped balance s L tid t (x.next s tick).1 (x.next s tick).2 L := by
  have hc := hk.carries
  have htid := hc.tid_eq
  have hst := hk.status
  simp only [Status, hstep] at hst
  obtain ⟨hmadeHigh, hopen, hf, hlow⟩ := hst
  have hunacked : x.ackedCommit = false := by
    by_contra h
    have := hk.acked (by simpa using h)
    rw [hstep] at this
    cases this
  by_cases hfree : s.get (.log x.high (x.highSeq + 1)) = none
  · rw [Xfer.next_preHigh_free hstep hfree]
    have hb' : Books accounts balance (s.insert (.log x.high (x.highSeq + 1))
        (.log x.tid x.highDelta tick.now)) L := hb.lock hfree hf.high hopen
    have hlock : ∀ x' : Xfer α τ, x'.tid = x.tid → Knows balance (s.insert
        (.log x.high (x.highSeq + 1)) (.log x.tid x.highDelta tick.now)) L tid t x' →
        Stepped balance s L tid t x' (s.insert (.log x.high (x.highSeq + 1))
          (.log x.tid x.highDelta tick.now)) L := fun x' _ hk' =>
      ⟨extends_refl L, hsound, hb', hk', fun y hy => kept_lock hfree (by rwa [htid])⟩
    have howns : ∀ o seq d, Entry (s.insert (.log x.high (x.highSeq + 1))
        (.log x.tid x.highDelta tick.now)) o seq x.tid d →
        (x.madeLow = true ∧ o = x.low ∧ seq = x.lowSeq + 1 ∧ d = x.lowDelta) ∨
        (true = true ∧ o = x.high ∧ seq = x.highSeq + 1 ∧ d = x.highDelta) := by
      intro o seq d he
      rw [entry_lock] at he
      split_ifs at he with hslot
      · exact .inr ⟨rfl, hslot.1, hslot.2, he.2⟩
      · rcases hk.owns o seq d he with hlow | ⟨hm, _⟩
        · exact .inl hlow
        · rw [hmadeHigh] at hm
          cases hm
    have hopen' : resolved (s.insert (.log x.high (x.highSeq + 1))
        (.log x.tid x.highDelta tick.now)) x.tid ≠ some true := by
      rwa [resolved_lock]
    have hboth : resolved (s.insert (.log x.high (x.highSeq + 1))
        (.log x.tid x.highDelta tick.now)) x.tid = none →
        Entry (s.insert (.log x.high (x.highSeq + 1)) (.log x.tid x.highDelta tick.now))
            x.low (x.lowSeq + 1) x.tid x.lowDelta ∧
          Entry (s.insert (.log x.high (x.highSeq + 1)) (.log x.tid x.highDelta tick.now))
            x.high (x.highSeq + 1) x.tid x.highDelta := by
      intro hnone
      rw [resolved_lock] at hnone
      refine ⟨entry_lock.mpr ?_, entry_lock.mpr (by simp)⟩
      rw [if_neg]
      · exact hlow hnone
      · rintro ⟨hx, hs⟩
        obtain ⟨_, hget⟩ := hlow hnone
        rw [hx, hs, hfree] at hget
        cases hget
    split_ifs with hcrash
    · exact hlock _ rfl ⟨⟨htid, hc.payer_eq, hc.amt_eq, hc.sides⟩, howns,
        ⟨hopen', ⟨hf.low, hf.high, hf.funds⟩, hboth⟩, by simp [hunacked]⟩
    · obtain ⟨pauses, resume, heq⟩ := maybePause_eq { x with madeHigh := true } tick
      rw [heq]
      exact hlock _ rfl ⟨⟨htid, hc.payer_eq, hc.amt_eq, hc.sides⟩, howns,
        ⟨hopen', ⟨hf.low, hf.high, hf.funds⟩, hboth⟩, by simp [hunacked]⟩
  · rw [Xfer.next_preHigh_taken hstep hfree]
    refine stepped_resolve hsound hb hk (by rwa [← htid]) x.high (x.highSeq + 1) tick.now
      (fun x s => (x.rollback s).1.resetOrGiveup (x.rollback s).2)
      (fun s' hb' hk' hopen' => ?_) rfl
    exact stepped_rollback_reset hsound hb' hk' hunacked hopen'

/-- A slot holds one entry. -/
theorem Entry.unique {o : α} {seq : Nat} {a b : τ} {d e : Int} (h : Entry s o seq a d)
    (h' : Entry s o seq b e) : a = b ∧ d = e := by
  obtain ⟨_, h⟩ := h
  obtain ⟨_, h'⟩ := h'
  rw [h] at h'
  cases h'
  exact ⟨rfl, rfl⟩

/-- An undecided transfer's entry stands right after the postings. -/
theorem Books.seq_eq (h : Books accounts balance s L) {o : α} {n : Nat} {a : τ} {d : Int}
    (he : Entry s o (n + 1) a d) (hle : n ≤ (L o).length) (hopen : resolved s a ≠ some true) :
    n = (L o).length := by
  rcases Nat.lt_or_ge n (L o).length with hlt | hge
  · obtain ⟨b, he', hb⟩ := h.posted o n _ (List.getElem?_eq_getElem hlt)
    rw [(he.unique he').1] at hopen
    exact absurd hb hopen
  · omega

omit [DecidableEq τ] in
theorem extends_post (L : Ledger α) (a b : α) (da db : Int) :
    Extends L (L.post a b da db) := by
  intro o
  unfold Ledger.post
  split_ifs
  · exact List.prefix_append ..
  · exact List.prefix_append ..
  · exact List.prefix_refl _

/-- The worker is about to decide that its transfer is committed. -/
def Commits (s : Store α τ) (tid : τ) (x : Xfer α τ) : Prop :=
  x.step = .commit ∧ resolved s tid = none

/-- What is to be committed is between two accounts: one slot cannot hold both deltas. -/
theorem Knows.sides_ne (hk : Knows balance s L tid t x) (hb : Books accounts balance s L)
    (hcommits : Commits s tid x) : x.low ≠ x.high := by
  obtain ⟨hstep, hnone⟩ := hcommits
  have hc := hk.carries
  have hst := hk.status
  simp only [Status, hstep] at hst
  obtain ⟨hopen, hf, hlocks⟩ := hst
  obtain ⟨hlow, hhigh⟩ := hlocks (hc.tid_eq ▸ hnone)
  have hlowSeq := hb.seq_eq hlow hf.low hopen
  have hhighSeq := hb.seq_eq hhigh hf.high hopen
  have hamt := t.amt_pos
  intro heq
  have hsame : x.lowDelta = x.highDelta := by
    unfold HasLow at hlow
    unfold HasHigh at hhigh
    rw [hlowSeq, heq] at hlow
    rw [hhighSeq] at hhigh
    exact (hlow.unique hhigh).2
  rcases hc.sides with ⟨_, _, hl, hh⟩ | ⟨_, _, _, hl, hh⟩ <;> omega

theorem stepped_commit (hsound : L.Sound accounts.toFinset (fun o => balance o))
    (hb : Books accounts balance s L) (hk : Knows balance s L tid t x) (hstep : x.step = .commit)
    (tick : Tick) :
    ∃ L', (resolved s tid ≠ none ∧ L' = L ∨
        resolved s tid = none ∧ L' = L.post t.payer t.payee (-t.amt) t.amt) ∧
      Stepped balance s L tid t (x.next s tick).1 (x.next s tick).2 L' := by
  have hc := hk.carries
  have htid := hc.tid_eq
  have hst := hk.status
  simp only [Status, hstep] at hst
  obtain ⟨hopen, hf, hlocks⟩ := hst
  by_cases hfree : s.get (.outcome x.tid) = none
  · rw [Xfer.next_commit_free hstep hfree]
    have hnone := hb.resolved_none.mpr hfree
    obtain ⟨hlow, hhigh⟩ := hlocks hnone
    have hlowSeq := hb.seq_eq hlow hf.low hopen
    have hhighSeq := hb.seq_eq hhigh hf.high hopen
    have hamt := t.amt_pos
    have hzero : x.lowDelta + x.highDelta = 0 := by
      rcases hc.sides with ⟨_, _, hl, hh⟩ | ⟨_, _, _, hl, hh⟩ <;> rw [hl, hh] <;> ring
    have hne : x.low ≠ x.high := hk.sides_ne hb ⟨hstep, htid ▸ hnone⟩
    have hlow' : Entry s x.low ((L x.low).length + 1) x.tid x.lowDelta := hlowSeq ▸ hlow
    have hhigh' : Entry s x.high ((L x.high).length + 1) x.tid x.highDelta := hhighSeq ▸ hhigh
    have honly : ∀ o seq d, Entry s o seq x.tid d → o = x.low ∨ o = x.high := by
      intro o seq d he
      rcases hk.owns o seq d he with ⟨_, ho, _⟩ | ⟨_, ho, _⟩
      · exact .inl ho
      · exact .inr ho
    have hb' := hb.commit hnone hlow' hhigh' honly
    have hsound' : (L.post x.low x.high x.lowDelta x.highDelta).Sound accounts.toFinset
        (fun o => balance o) := by
      have hfunds : t.amt ≤ L.value (fun o => balance o) t.payer := by
        rw [← Ledger.valueAt_length t.payer le_rfl, ← hc.payer_eq, ← hc.amt_eq]
        have hfunds := hf.funds
        split_ifs at hfunds with hside
        · rwa [hlowSeq, hside] at hfunds
        · rwa [hhighSeq, hc.payer_side.resolve_left hside] at hfunds
      have hpayee : 0 ≤ L.value (fun o => balance o) t.payee := by
        rw [← Ledger.valueAt_length t.payee le_rfl]
        exact hsound.solvent _ (by simp [t.payee_mem]) _
      rcases hc.sides with ⟨hl, hh, hld, hhd⟩ | ⟨hl, hh, _, hld, hhd⟩
      · refine hsound.post hne ?_ ?_ hzero ?_ ?_
        · simp [hl, t.payer_mem]
        · simp [hh, t.payee_mem]
        · rw [hl, hld]
          omega
        · rw [hh, hhd]
          omega
      · refine hsound.post hne ?_ ?_ hzero ?_ ?_
        · simp [hl, t.payee_mem]
        · simp [hh, t.payer_mem]
        · rw [hl, hld]
          omega
        · rw [hh, hhd]
          omega
    have hpost : L.post x.low x.high x.lowDelta x.highDelta =
        L.post t.payer t.payee (-t.amt) t.amt := by
      rcases hc.sides with ⟨hl, hh, hld, hhd⟩ | ⟨hl, hh, _, hld, hhd⟩
      · rw [hl, hh, hld, hhd]
      · rw [Ledger.post_comm hne, hl, hh, hld, hhd]
    refine ⟨_, .inr ⟨htid ▸ hnone, hpost⟩, extends_post L _ _ _ _, hsound', hb', ?_,
      fun y hy => kept_commit (by rwa [htid])⟩
    · refine ⟨⟨htid, hc.payer_eq, hc.amt_eq, hc.sides⟩,
        fun o seq d he => hk.owns o seq d (entry_decide.mp he), ⟨?_, ?_, ?_⟩, fun _ => rfl⟩
      · exact (resolved_decide ..).trans (if_pos rfl)
      · exact entry_decide.mpr hlow
      · exact entry_decide.mpr hhigh
  · rw [Xfer.next_commit_taken hstep hfree]
    refine ⟨L, .inl ⟨fun hnone => hfree (hb.resolved_none.mp (htid ▸ hnone)), rfl⟩,
      stepped_rollback_reset hsound hb hk ?_ (by rwa [← htid])⟩
    by_contra h
    have := hk.acked (by simpa using h)
    rw [hstep] at this
    cases this

/-- One step, from any of a worker's steps. -/
theorem stepped_next (hsound : L.Sound accounts.toFinset (fun o => balance o))
    (hb : Books accounts balance s L) (hk : Knows balance s L tid t x) (tick : Tick) :
    ∃ L', (¬ Commits s tid x ∧ L' = L ∨
        Commits s tid x ∧ L' = L.post t.payer t.payee (-t.amt) t.amt) ∧
      Stepped balance s L tid t (x.next s tick).1 (x.next s tick).2 L' := by
  have hidle : x.step = .done ∨ x.step = .aborted ∨ x.step = .crashed → x.next s tick = (x, s) := by
    rintro (h | h | h) <;> simp only [Xfer.next, h]
  have hno : x.step ≠ .commit → ¬ Commits s tid x := fun hne h => hne h.1
  cases hstep : x.step with
  | read => exact ⟨L, .inl ⟨hno (by simp [hstep]), rfl⟩, stepped_read hsound hb hk hstep tick⟩
  | preLow => exact ⟨L, .inl ⟨hno (by simp [hstep]), rfl⟩, stepped_preLow hsound hb hk hstep tick⟩
  | preHigh =>
    exact ⟨L, .inl ⟨hno (by simp [hstep]), rfl⟩, stepped_preHigh hsound hb hk hstep tick⟩
  | commit =>
    obtain ⟨L', hL, hstepped⟩ := stepped_commit hsound hb hk hstep tick
    refine ⟨L', ?_, hstepped⟩
    exact hL.imp (fun h => ⟨fun hc => h.1 hc.2, h.2⟩) fun h => ⟨⟨hstep, h.1⟩, h.2⟩
  | done =>
    rw [hidle (.inl hstep)]
    exact ⟨L, .inl ⟨hno (by simp [hstep]), rfl⟩, stepped_same hsound hb hk⟩
  | aborted =>
    rw [hidle (.inr (.inl hstep))]
    exact ⟨L, .inl ⟨hno (by simp [hstep]), rfl⟩, stepped_same hsound hb hk⟩
  | crashed =>
    rw [hidle (.inr (.inr hstep))]
    exact ⟨L, .inl ⟨hno (by simp [hstep]), rfl⟩, stepped_same hsound hb hk⟩

/-- The invariant: the store is a sound ledger's, and every worker knows where it stands. -/
structure Inv (S : Setup α τ) (m : Sim α τ) (L : Ledger α) : Prop where
  sound : L.Sound S.accounts.toFinset (fun o => S.balance o)
  books : Books S.accounts S.balance m.store L
  knows : ∀ tid, Knows S.balance m.store L tid (S.transfer tid) (m.workers tid)

/-- A step posts nothing, or the transfer that it commits. -/
theorem inv_pick {S : Setup α τ} {m : Sim α τ} (h : Inv S m L) (tid : τ) (tick : Tick) :
    ∃ L', Inv S (m.pick tid tick) L' ∧
      (¬ Commits m.store tid (m.workers tid) ∧ L' = L ∨
        Commits m.store tid (m.workers tid) ∧ L' = L.post (S.transfer tid).payer
          (S.transfer tid).payee (-(S.transfer tid).amt) (S.transfer tid).amt) := by
  obtain ⟨L', hL, hstep⟩ := stepped_next h.sound h.books (h.knows tid) tick
  refine ⟨L', ⟨hstep.sound, hstep.books, fun other => ?_⟩, hL⟩
  by_cases hother : other = tid
  · subst hother
    simpa [Sim.pick] using hstep.knows
  · have hworker : (m.pick tid tick).workers other = m.workers other := by
      simp [Sim.pick, hother]
    rw [hworker]
    exact (h.knows other).kept (hstep.others other hother) hstep.grows

theorem setupStore_get (balance : α → Nat) (accounts : List α) (s : Store α τ) (k : Key α τ) :
    Store.get (accounts.foldl (fun s o => s.insert (.base o) (.base 0 (balance o))) s) k =
      match k with
      | .base o => if o ∈ accounts then some (.base 0 (balance o)) else s.get k
      | _ => s.get k := by
  induction accounts generalizing s with
  | nil => cases k <;> simp
  | cons a accounts ih =>
    rw [List.foldl_cons, ih]
    cases k with
    | base o =>
      by_cases ho : o = a
      · subst ho
        simp [Store.get_insert]
      · simp [Store.get_insert, ho]
    | log o seq => simp [Store.get_insert]
    | outcome tid => simp [Store.get_insert]

theorem inv_start [LinearOrder α] (S : Setup α τ) : Inv S S.start fun _ => [] := by
  have hlog : ∀ o seq, S.store.get (.log o seq) = none := fun o seq => setupStore_get ..
  have hout : ∀ tid, S.store.get (.outcome tid) = none := fun tid => setupStore_get ..
  have hentry : ∀ o seq tid d, ¬ Entry S.store o seq tid d := by
    rintro o seq tid d ⟨_, hget⟩
    rw [hlog] at hget
    cases hget
  refine ⟨Ledger.sound_nil fun o _ => by simp, ?_, fun tid => ?_⟩
  · refine ⟨fun o ho => ?_, fun o seq c hc => ?_, fun tid c hc => ?_, fun o n d hd => ?_,
      fun o seq tid d he => absurd he (hentry _ _ _ _),
      fun o tid d he => absurd he (hentry _ _ _ _)⟩
    · exact (setupStore_get ..).trans (if_pos ho)
    · cases hc.symm.trans (hlog o seq)
    · cases hc.symm.trans (hout tid)
    · simp at hd
  · refine ⟨⟨rfl, rfl, rfl, ?_⟩, fun o seq d he => absurd he (hentry _ _ _ _), ?_,
      fun htold => by cases htold⟩
    · simp only [Setup.start, Xfer.new]
      split_ifs <;> simp_all
    · refine ⟨rfl, rfl, ?_⟩
      change resolved S.store tid ≠ some true
      rw [resolved, hout]
      intro hnone
      cases hnone

/-- The account's committed prefix, as read, reaches over the slot. -/
def InPrefix (read : α → Nat × Int) (o : α) (seq : Nat) : Prop := 0 < seq ∧ seq ≤ (read o).1

/-- The transfer's two entries are inside its accounts' committed prefixes. -/
def Posted (read : α → Nat × Int) (s : Store α τ) (tid : τ) (t : Transfer accounts) : Prop :=
  (∃ seq, Entry s t.payer seq tid (-t.amt) ∧ InPrefix read t.payer seq) ∧
    ∃ seq, Entry s t.payee seq tid t.amt ∧ InPrefix read t.payee seq

/-- What the simulator's oracle checks, of what it reads from the accounts. -/
structure Safe (S : Setup α τ) (m : Sim α τ) (read : α → Nat × Int) : Prop where
  total : ∑ o ∈ S.accounts.toFinset, (read o).2 = ∑ o ∈ S.accounts.toFinset, (S.balance o : Int)
  nonneg : ∀ o ∈ S.accounts, 0 ≤ (read o).2
  posted : ∀ tid, resolved m.store tid = some true → Posted read m.store tid (S.transfer tid)
  acked : ∀ tid, (m.workers tid).ackedCommit = true → resolved m.store tid = some true

/-- A committed transfer's entry lies inside its account's committed prefix. -/
theorem Books.inPrefix (h : Books accounts balance s L) {o : α} (ho : o ∈ accounts) {seq : Nat}
    {d : Int} (he : Entry s o seq tid d) (hv : resolved s tid = some true) :
    InPrefix (Protosim.readCommitted s) o seq := by
  rw [InPrefix, h.readCommitted ho]
  obtain ⟨hpos, hle⟩ := h.within o seq tid d he
  have hne : seq ≠ (L o).length + 1 := by
    rintro rfl
    exact h.pending o tid d he hv
  change 0 < seq ∧ seq ≤ (L o).length
  omega

theorem Knows.posted (h : Knows balance s L tid t x) (hb : Books accounts balance s L)
    (hv : resolved s tid = some true) : Posted (readCommitted s) s tid t := by
  have hc := h.carries
  have hx : resolved s x.tid = some true := by rwa [hc.tid_eq]
  have hlocks : HasLow s x ∧ HasHigh s x := by
    have hst := h.status
    unfold Status at hst
    cases hstep : x.step <;> simp only [hstep] at hst
    case done => exact hst.2
    all_goals exact absurd hx (by tauto)
  unfold HasLow HasHigh at hlocks
  rw [hc.tid_eq] at hlocks
  rcases hc.sides with ⟨hl, hh, hld, hhd⟩ | ⟨hl, hh, _, hld, hhd⟩ <;>
    rw [hl, hh, hld, hhd] at hlocks
  · exact ⟨⟨_, hlocks.1, hb.inPrefix t.payer_mem hlocks.1 hv⟩,
      ⟨_, hlocks.2, hb.inPrefix t.payee_mem hlocks.2 hv⟩⟩
  · exact ⟨⟨_, hlocks.2, hb.inPrefix t.payer_mem hlocks.2 hv⟩,
      ⟨_, hlocks.1, hb.inPrefix t.payee_mem hlocks.1 hv⟩⟩

/-- Read without overflow, the accounts are as the oracle wants them. -/
theorem Inv.safe {S : Setup α τ} {m : Sim α τ} (h : Inv S m L) :
    Safe S m (readCommitted m.store) where
  total := by
    rw [← h.sound.conserved]
    refine Finset.sum_congr rfl fun o ho => ?_
    rw [h.books.readCommitted (List.mem_toFinset.mp ho)]
  nonneg o ho := by
    rw [h.books.readCommitted ho, ← Ledger.valueAt_length o le_rfl]
    exact h.sound.solvent o (List.mem_toFinset.mpr ho) _
  posted tid hv := (h.knows tid).posted h.books hv
  acked tid hack := by
    have hst := (h.knows tid).status
    simp only [Status, (h.knows tid).acked hack] at hst
    rw [← (h.knows tid).carries.tid_eq]
    exact hst.1

end Fafo.Protosim
