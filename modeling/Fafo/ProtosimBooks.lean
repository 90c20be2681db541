import Fafo.Library.Ledger
import Fafo.Protosim

/-! The simulator's store as the ledger of its committed transfers. -/
namespace Fafo.Protosim

variable {α τ : Type} [DecidableEq α] [DecidableEq τ]

/-- The slot holds this entry of `tid`. -/
def Entry (s : Store α τ) (o : α) (seq : Nat) (tid : τ) (delta : Int) : Prop :=
  ∃ born, s.get (.log o seq) = some (.log tid delta born)

/-- The store's committed entries are the ledger's postings, and nothing lies beyond the slot after
them, which is not committed. -/
structure Books (accounts : List α) (balance : α → Nat) (s : Store α τ) (L : Ledger α) : Prop where
  base : ∀ o ∈ accounts, s.get (.base o) = some (.base 0 (balance o))
  typedLog : ∀ o seq c, s.get (.log o seq) = some c → ∃ tid delta born, c = .log tid delta born
  typedOutcome : ∀ tid c, s.get (.outcome tid) = some c → ∃ b, c = .outcome b
  posted : ∀ o n d, (L o)[n]? = some d → ∃ tid, Entry s o (n + 1) tid d ∧ resolved s tid = some true
  within : ∀ o seq tid d, Entry s o seq tid d → 0 < seq ∧ seq ≤ (L o).length + 1
  pending : ∀ o tid d, Entry s o ((L o).length + 1) tid d → resolved s tid ≠ some true

variable {accounts : List α} {balance : α → Nat} {s s' s'' : Store α τ} {L : Ledger α}

theorem committedDelta_of_entry {o : α} {seq : Nat} {tid : τ} {d : Int}
    (h : Entry s o seq tid d) :
    committedDelta s o seq = if resolved s tid = some true then some d else none := by
  obtain ⟨born, h⟩ := h
  simp [committedDelta, h, committed]

/-- Keys of the postings are distinct keys of the store. -/
theorem Books.length_le (h : Books accounts balance s L) (o : α) :
    (L o).length ≤ s.keys.length := by
  have hnodup : ((List.range (L o).length).map fun n => Key.log (τ := τ) o (n + 1)).Nodup := by
    refine List.nodup_range.map fun a b hab => ?_
    simpa using hab
  have hsub : ((List.range (L o).length).map fun n => Key.log o (n + 1)) ⊆ s.keys := by
    intro k hk
    obtain ⟨n, hn, rfl⟩ := List.mem_map.mp hk
    rw [List.mem_range] at hn
    obtain ⟨tid, ⟨born, hget⟩, _⟩ := h.posted o n _ (List.getElem?_eq_getElem hn)
    exact AList.mem_keys.mpr (AList.lookup_isSome.mp (by rw [← Store.get, hget]; rfl))
  have hle := (hnodup.subperm hsub).length_le
  simpa using hle

theorem Books.delta (h : Books accounts balance s L) {o : α} {n : Nat} (hn : n < (L o).length) :
    committedDelta s o (n + 1) = some (L o)[n] := by
  obtain ⟨tid, hentry, hv⟩ := h.posted o n _ (List.getElem?_eq_getElem hn)
  rw [committedDelta_of_entry hentry, if_pos hv]

theorem Books.delta_none (h : Books accounts balance s L) (o : α) :
    committedDelta s o ((L o).length + 1) = none := by
  cases hget : s.get (.log o ((L o).length + 1)) with
  | none => simp [committedDelta, hget]
  | some c =>
    obtain ⟨tid, d, born, rfl⟩ := h.typedLog o _ c hget
    rw [committedDelta_of_entry ⟨born, hget⟩, if_neg (h.pending o tid d ⟨born, hget⟩)]

theorem Books.readLoop (h : Books accounts balance s L) (o : α) (fuel n : Nat)
    (hn : n ≤ (L o).length) (hfuel : (L o).length - n ≤ fuel) (val : Int) :
    Protosim.readLoop s o fuel n val = ((L o).length, val + ((L o).drop n).sum) := by
  induction fuel generalizing n val with
  | zero =>
    obtain rfl : n = (L o).length := by omega
    simp [Protosim.readLoop]
  | succ fuel ih =>
    rw [Protosim.readLoop]
    rcases Nat.lt_or_ge n (L o).length with hlt | hge
    · rw [h.delta hlt]
      dsimp only
      rw [ih (n + 1) hlt (by omega), List.drop_eq_getElem_cons hlt, List.sum_cons, add_assoc]
    · obtain rfl : n = (L o).length := by omega
      rw [h.delta_none]
      simp

/-- A read finds the ledger's postings, and the value they add up to. -/
theorem Books.readCommitted (h : Books accounts balance s L) {o : α} (ho : o ∈ accounts) :
    Protosim.readCommitted s o = ((L o).length, L.value (fun o => balance o) o) := by
  unfold Protosim.readCommitted
  rw [h.base o ho]
  dsimp only
  rw [h.readLoop o _ 0 (Nat.zero_le _) (by simpa using h.length_le o)]
  rfl

/-- Its outcome changes at most to aborted, its entries stay unless it is aborted, and none
appears. -/
structure Kept (tid : τ) (s s' : Store α τ) : Prop where
  outcome : resolved s' tid = resolved s tid ∨
    resolved s tid = none ∧ resolved s' tid = some false
  stays : ∀ o seq d, Entry s o seq tid d → Entry s' o seq tid d ∨ resolved s' tid = some false
  appears : ∀ o seq d, Entry s' o seq tid d → Entry s o seq tid d

theorem kept_refl (tid : τ) (s : Store α τ) : Kept tid s s :=
  ⟨.inl rfl, fun _ _ _ => .inl, fun _ _ _ => id⟩

theorem Kept.decided {tid : τ} (h : Kept tid s s') {b : Bool} (hb : resolved s tid = some b) :
    resolved s' tid = some b := by
  rcases h.outcome with heq | ⟨hnone, _⟩
  · exact heq.trans hb
  · rw [hb] at hnone
    cases hnone

theorem Kept.not_committed {tid : τ} (h : Kept tid s s') (hs : resolved s tid ≠ some true) :
    resolved s' tid ≠ some true := by
  rcases h.outcome with heq | ⟨_, hf⟩
  · rwa [heq]
  · simp [hf]

theorem Kept.undecided {tid : τ} (h : Kept tid s s') (hs : resolved s' tid = none) :
    resolved s tid = none := by
  rcases h.outcome with heq | ⟨hnone, _⟩
  · rw [← heq]
    exact hs
  · exact hnone

theorem Kept.trans {tid : τ} (h : Kept tid s s') (h' : Kept tid s' s'') : Kept tid s s'' where
  outcome := by
    rcases h.outcome with heq | ⟨hnone, hf⟩
    · rw [← heq]
      exact h'.outcome
    · exact .inr ⟨hnone, h'.decided hf⟩
  stays o seq d he := by
    rcases h.stays o seq d he with he' | hf
    · exact h'.stays o seq d he'
    · exact .inr (h'.decided hf)
  appears o seq d he := h.appears o seq d (h'.appears o seq d he)

theorem resolved_delete (s : Store α τ) (o : α) (seq : Nat) (tid : τ) :
    resolved (s.delete (.log o seq)) tid = resolved s tid := by
  simp [resolved, Store.get_delete]

theorem entry_delete {o o' : α} {seq seq' : Nat} {tid : τ} {d : Int} :
    Entry (s.delete (.log o seq)) o' seq' tid d ↔
      ¬ (o' = o ∧ seq' = seq) ∧ Entry s o' seq' tid d := by
  unfold Entry
  simp only [Store.get_delete, Key.log.injEq]
  by_cases h : o' = o ∧ seq' = seq <;> simp [h]

theorem Books.delete (h : Books accounts balance s L) {o : α} {seq : Nat}
    (hpending : ∀ tid d, Entry s o seq tid d → resolved s tid ≠ some true) :
    Books accounts balance (s.delete (.log o seq)) L where
  base o' ho' := by simpa [Store.get_delete] using h.base o' ho'
  typedLog o' seq' c hc := by
    rw [Store.get_delete] at hc
    split_ifs at hc
    exact h.typedLog o' seq' c hc
  typedOutcome tid c hc := h.typedOutcome tid c (by simpa [Store.get_delete] using hc)
  posted o' n d hd := by
    obtain ⟨tid, he, hv⟩ := h.posted o' n d hd
    refine ⟨tid, entry_delete.mpr ⟨?_, he⟩, (resolved_delete ..).trans hv⟩
    rintro ⟨rfl, rfl⟩
    exact hpending tid d he hv
  within o' seq' tid d he := h.within o' seq' tid d (entry_delete.mp he).2
  pending o' tid d he := by
    rw [resolved_delete]
    exact h.pending o' tid d (entry_delete.mp he).2

theorem kept_delete {o : α} {seq : Nat} {tid : τ}
    (h : ∀ d, Entry s o seq tid d → resolved s tid = some false) :
    Kept tid s (s.delete (.log o seq)) where
  outcome := .inl (resolved_delete ..)
  stays o' seq' d he := by
    by_cases hslot : o' = o ∧ seq' = seq
    · obtain ⟨rfl, rfl⟩ := hslot
      exact .inr ((resolved_delete ..).trans (h d he))
    · exact .inl (entry_delete.mpr ⟨hslot, he⟩)
  appears o' seq' d he := (entry_delete.mp he).2

theorem resolved_decide (s : Store α τ) (tid x : τ) (b : Bool) :
    resolved (s.insert (.outcome tid) (.outcome b)) x =
      if x = tid then some b else resolved s x := by
  unfold resolved
  rw [Store.get_insert]
  by_cases h : x = tid <;> simp [h]

theorem entry_decide {tid x : τ} {b : Bool} {o : α} {seq : Nat} {d : Int} :
    Entry (s.insert (.outcome tid) (.outcome b)) o seq x d ↔ Entry s o seq x d := by
  simp [Entry, Store.get_insert]

theorem Books.resolved_none (h : Books accounts balance s L) {tid : τ} :
    resolved s tid = none ↔ s.get (.outcome tid) = none := by
  unfold resolved
  cases hget : s.get (.outcome tid) with
  | none => simp
  | some c =>
    obtain ⟨b, rfl⟩ := h.typedOutcome tid c hget
    simp

theorem Books.abort (h : Books accounts balance s L) {tid : τ} (hnone : resolved s tid = none) :
    Books accounts balance (s.insert (.outcome tid) (.outcome false)) L where
  base o ho := by simpa [Store.get_insert] using h.base o ho
  typedLog o seq c hc := h.typedLog o seq c (by simpa [Store.get_insert] using hc)
  typedOutcome x c hc := by
    rw [Store.get_insert] at hc
    split_ifs at hc
    · exact ⟨false, (Option.some.inj hc).symm⟩
    · exact h.typedOutcome x c hc
  posted o n d hd := by
    obtain ⟨x, he, hv⟩ := h.posted o n d hd
    refine ⟨x, entry_decide.mpr he, ?_⟩
    rw [resolved_decide, if_neg]
    · exact hv
    · rintro rfl
      rw [hnone] at hv
      cases hv
  within o seq x d he := h.within o seq x d (entry_decide.mp he)
  pending o x d he := by
    rw [resolved_decide]
    split_ifs
    · simp
    · exact h.pending o x d (entry_decide.mp he)

theorem kept_abort {tid : τ} (hnone : resolved s tid = none) (x : τ) :
    Kept x s (s.insert (.outcome tid) (.outcome false)) where
  outcome := by
    rw [resolved_decide]
    split_ifs with hx
    · exact .inr ⟨hx ▸ hnone, rfl⟩
    · exact .inl rfl
  stays _ _ _ he := .inl (entry_decide.mpr he)
  appears _ _ _ he := entry_decide.mp he

theorem resolved_lock (s : Store α τ) (o : α) (seq : Nat) (c : Cell τ) (tid : τ) :
    resolved (s.insert (.log o seq) c) tid = resolved s tid := by
  simp [resolved, Store.get_insert]

theorem entry_lock {o o' : α} {seq seq' born : Nat} {tid x : τ} {delta d : Int} :
    Entry (s.insert (.log o seq) (.log tid delta born)) o' seq' x d ↔
      if o' = o ∧ seq' = seq then x = tid ∧ d = delta else Entry s o' seq' x d := by
  unfold Entry
  simp only [Store.get_insert, Key.log.injEq]
  split_ifs
  · constructor
    · rintro ⟨born', heq⟩
      cases heq
      exact ⟨rfl, rfl⟩
    · rintro ⟨rfl, rfl⟩
      exact ⟨born, rfl⟩
  · rfl

theorem Books.lock (h : Books accounts balance s L) {o : α} {n born : Nat} {tid : τ} {delta : Int}
    (hfree : s.get (.log o (n + 1)) = none) (hn : n ≤ (L o).length)
    (hopen : resolved s tid ≠ some true) :
    Books accounts balance (s.insert (.log o (n + 1)) (.log tid delta born)) L where
  base o' ho' := by simpa [Store.get_insert] using h.base o' ho'
  typedLog o' seq c hc := by
    rw [Store.get_insert] at hc
    split_ifs at hc
    · exact ⟨tid, delta, born, (Option.some.inj hc).symm⟩
    · exact h.typedLog o' seq c hc
  typedOutcome x c hc := h.typedOutcome x c (by simpa [Store.get_insert] using hc)
  posted o' m d hd := by
    obtain ⟨x, he, hv⟩ := h.posted o' m d hd
    refine ⟨x, ?_, (resolved_lock ..).trans hv⟩
    rw [entry_lock, if_neg]
    · exact he
    · rintro ⟨rfl, hm⟩
      obtain ⟨_, hget⟩ := he
      rw [hm, hfree] at hget
      cases hget
  within o' seq x d he := by
    rw [entry_lock] at he
    split_ifs at he with hslot
    · obtain ⟨rfl, rfl⟩ := hslot
      omega
    · exact h.within o' seq x d he
  pending o' x d he := by
    rw [resolved_lock]
    rw [entry_lock] at he
    split_ifs at he
    · rw [he.1]
      exact hopen
    · exact h.pending o' x d he

theorem kept_lock {o : α} {seq born : Nat} {tid x : τ} {delta : Int}
    (hfree : s.get (.log o seq) = none) (hne : x ≠ tid) :
    Kept x s (s.insert (.log o seq) (.log tid delta born)) where
  outcome := .inl (resolved_lock ..)
  stays o' seq' d he := by
    refine .inl ?_
    rw [entry_lock, if_neg]
    · exact he
    · rintro ⟨rfl, rfl⟩
      obtain ⟨_, hget⟩ := he
      rw [hfree] at hget
      cases hget
  appears o' seq' d he := by
    rw [entry_lock] at he
    split_ifs at he
    · exact absurd he.1 hne
    · exact he

/-- Committing a transfer with an entry in the slot after the postings of each of its two accounts,
and none elsewhere, posts it. -/
theorem Books.commit (h : Books accounts balance s L) {tid : τ} {low high : α}
    {lowDelta highDelta : Int} (hnone : resolved s tid = none)
    (hlow : Entry s low ((L low).length + 1) tid lowDelta)
    (hhigh : Entry s high ((L high).length + 1) tid highDelta)
    (honly : ∀ o seq d, Entry s o seq tid d → o = low ∨ o = high) :
    Books accounts balance (s.insert (.outcome tid) (.outcome true))
      (L.post low high lowDelta highDelta) where
  base o ho := by simpa [Store.get_insert] using h.base o ho
  typedLog o seq c hc := h.typedLog o seq c (by simpa [Store.get_insert] using hc)
  typedOutcome x c hc := by
    rw [Store.get_insert] at hc
    split_ifs at hc
    · exact ⟨true, (Option.some.inj hc).symm⟩
    · exact h.typedOutcome x c hc
  posted o n d hd := by
    have hold : ∀ d, (L o)[n]? = some d → ∃ x, Entry (s.insert (.outcome tid) (.outcome true)) o
        (n + 1) x d ∧ resolved (s.insert (.outcome tid) (.outcome true)) x = some true := by
      intro d hd
      obtain ⟨x, he, hv⟩ := h.posted o n d hd
      refine ⟨x, entry_decide.mpr he, ?_⟩
      rw [resolved_decide]
      split_ifs
      · rfl
      · exact hv
    have hnew : ∀ e, Entry s o ((L o).length + 1) tid e → (L o ++ [e])[n]? = some d →
        ∃ x, Entry (s.insert (.outcome tid) (.outcome true)) o (n + 1) x d ∧
          resolved (s.insert (.outcome tid) (.outcome true)) x = some true := by
      intro e he hd
      rcases Nat.lt_or_ge n (L o).length with hlt | hge
      · rw [List.getElem?_append_left hlt] at hd
        exact hold d hd
      · rw [List.getElem?_append_right hge] at hd
        obtain ⟨hn, rfl⟩ := List.getElem?_eq_some_iff.mp hd
        obtain rfl : n = (L o).length := by
          rw [List.length_singleton] at hn
          omega
        refine ⟨tid, entry_decide.mpr (by simpa using he), ?_⟩
        rw [resolved_decide, if_pos rfl]
    unfold Ledger.post at hd
    split_ifs at hd with hol hoh
    · exact hnew lowDelta (hol ▸ hlow) hd
    · exact hnew highDelta (hoh ▸ hhigh) hd
    · exact hold d hd
  within o seq x d he := by
    have hw := h.within o seq x d (entry_decide.mp he)
    unfold Ledger.post
    split_ifs
    · rw [List.length_append]
      omega
    · rw [List.length_append]
      omega
    · exact hw
  pending o x d hx := by
    have he := entry_decide.mp hx
    clear hx
    unfold Ledger.post at he
    rw [resolved_decide]
    split_ifs at he with hol hoh
    · have hw := h.within o _ x d he
      rw [List.length_append, List.length_singleton] at hw
      omega
    · have hw := h.within o _ x d he
      rw [List.length_append, List.length_singleton] at hw
      omega
    · rw [if_neg]
      · exact h.pending o x d he
      · rintro rfl
        rcases honly o _ d he with heq | heq
        · exact hol heq
        · exact hoh heq

theorem kept_commit {tid x : τ} (hne : x ≠ tid) :
    Kept x s (s.insert (.outcome tid) (.outcome true)) where
  outcome := .inl (by rw [resolved_decide, if_neg hne])
  stays _ _ _ he := .inl (entry_decide.mpr he)
  appears _ _ _ he := entry_decide.mp he

/-- Resolving a slot leaves every transfer what it relies on, the resolver's own included. -/
theorem Books.resolveSlot (h : Books accounts balance s L) (o : α) (seq now : Nat) :
    Books accounts balance (Protosim.resolveSlot s o seq now).2 L ∧
      ∀ x, Kept x s (Protosim.resolveSlot s o seq now).2 := by
  unfold Protosim.resolveSlot
  cases hget : s.get (.log o seq) with
  | none => exact ⟨h, fun x => kept_refl x s⟩
  | some c =>
    obtain ⟨tid, d, born, rfl⟩ := h.typedLog o seq c hget
    have hholder : ∀ {s'}, s'.get (.log o seq) = some (.log tid d born) →
        ∀ x d', Entry s' o seq x d' → x = tid := by
      rintro s' hget' x d' ⟨born', hx⟩
      rw [hget'] at hx
      cases hx
      rfl
    dsimp only
    cases hv : resolved s tid with
    | some b =>
      cases b with
      | true => exact ⟨h, fun x => kept_refl x s⟩
      | false =>
        refine ⟨h.delete fun x d' he => ?_, fun x => kept_delete fun d' he => ?_⟩
        · rw [hholder hget x d' he, hv]
          nofun
        · rw [hholder hget x d' he, hv]
    | none =>
      have hfree := h.resolved_none.mp hv
      simp only [Store.create, hfree, Option.isNone_none, if_true, Bool.true_or]
      split_ifs
      · exact ⟨h, fun x => kept_refl x s⟩
      · have hget' : Store.get (s.insert (.outcome tid) (.outcome false)) (.log o seq) =
            some (.log tid d born) := by simpa [Store.get_insert] using hget
        have hv' : resolved (s.insert (.outcome tid) (.outcome false)) tid = some false := by
          rw [resolved_decide, if_pos rfl]
        refine ⟨(h.abort hv).delete fun x d' he => ?_,
          fun x => (kept_abort hv x).trans (kept_delete fun d' he => ?_)⟩
        · rw [hholder hget' x d' he, hv']
          nofun
        · rw [hholder hget' x d' he, hv']

/-- A tid-safe delete removes nothing but the transfer's own uncommitted entry. -/
theorem Books.safeDelete (h : Books accounts balance s L) {o : α} {seq : Nat} {tid : τ}
    (hopen : resolved s tid ≠ some true) :
    Books accounts balance (safeDelete s (.log o seq) tid) L ∧
      (∀ x, x ≠ tid → Kept x s (safeDelete s (.log o seq) tid)) ∧
      (∀ x, resolved (safeDelete s (.log o seq) tid) x = resolved s x) ∧
      ∀ o' seq' d, Entry (safeDelete s (.log o seq) tid) o' seq' tid d ↔
        ¬ (o' = o ∧ seq' = seq) ∧ Entry s o' seq' tid d := by
  unfold Protosim.safeDelete
  have hsame : (∀ d, ¬ Entry s o seq tid d) → ∀ o' seq' d, Entry s o' seq' tid d ↔
      ¬ (o' = o ∧ seq' = seq) ∧ Entry s o' seq' tid d := by
    intro hnot o' seq' d
    refine ⟨fun he => ⟨?_, he⟩, And.right⟩
    rintro ⟨rfl, rfl⟩
    exact hnot d he
  cases hget : s.get (.log o seq) with
  | none =>
    refine ⟨h, fun x _ => kept_refl x s, fun _ => rfl, hsame ?_⟩
    rintro d ⟨_, hd⟩
    rw [hget] at hd
    cases hd
  | some c =>
    obtain ⟨t, d, born, rfl⟩ := h.typedLog o seq c hget
    have hholder : ∀ x d', Entry s o seq x d' → x = t := by
      rintro x d' ⟨born', hx⟩
      rw [hget] at hx
      cases hx
      rfl
    dsimp only
    split_ifs with htid
    · subst htid
      refine ⟨h.delete fun x d' he => ?_, fun x hne => kept_delete fun d' he => ?_,
        fun x => resolved_delete .., fun _ _ _ => entry_delete⟩
      · rw [hholder x d' he]
        exact hopen
      · exact absurd (hholder x d' he) hne
    · refine ⟨h, fun x _ => kept_refl x s, fun _ => rfl, hsame fun d' he => ?_⟩
      exact htid (hholder tid d' he).symm

end Fafo.Protosim
