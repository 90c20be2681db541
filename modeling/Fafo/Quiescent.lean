import Fafo.Library.Solo
import Fafo.LogSpecs

/-! A store at rest: what its log says, and what a pass over it reads when operations may fail. -/
namespace Fafo

open Interleave

variable {ι τ β δ α : Type} [LinearOrder ι] [DecidableEq τ]

/-- The payload of the entry at `seq`, if its transaction is committed. -/
def committedAt (w : LogWorld ι τ β δ) (id : ι) (seq : Nat) : Option (LogPayload β δ) :=
  (entryAt w id seq).bind fun e => if verdict w e.txn = some true then some e.payload else none

/-- The seq of the highest base. -/
def topBase (w : LogWorld ι τ β δ) (id : ι) : Option Nat :=
  ((w.blobs.keys.filter (basePrefix id)).filterMap (parseBaseSeq id)).max?

def baseImage (M : Images β δ) (w : LogWorld ι τ β δ) (id : ι) : β :=
  match topBase w id with
  | some seq => ((w.get (.base id seq)).map (imageBytes M)).getD M.empty
  | none => M.empty

def baseSeq (w : LogWorld ι τ β δ) (id : ι) : Nat := (topBase w id).getD 0

/-- The contiguous committed payloads above `seq`, at most `fuel` of them. -/
def runAbove (w : LogWorld ι τ β δ) (id : ι) : Nat → Nat → List (LogPayload β δ)
  | 0, _ => []
  | fuel + 1, seq =>
    match committedAt w id (seq + 1) with
    | some p => p :: runAbove w id fuel (seq + 1)
    | none => []

/-- The maximal contiguous committed run above `seq`: no run is longer than the store. -/
def maximalRun (w : LogWorld ι τ β δ) (id : ι) (seq : Nat) : List (LogPayload β δ) :=
  runAbove w id (w.blobs.keys.length + 1) seq

/-- The payloads above `seq`, and a slot after them that holds nothing committed. -/
def IsMaximalRun (w : LogWorld ι τ β δ) (id : ι) (seq : Nat) (ps : List (LogPayload β δ)) : Prop :=
  ∀ j ≤ ps.length, committedAt w id (seq + j + 1) = ps[j]?

theorem committedAt_eq_some {w : LogWorld ι τ β δ} {id : ι} {seq : Nat} {p : LogPayload β δ} :
    committedAt w id seq = some p ↔
      ∃ e, entryAt w id seq = some e ∧ verdict w e.txn = some true ∧ e.payload = p := by
  simp [committedAt, Option.bind_eq_some_iff]

theorem runAbove_spec (w : LogWorld ι τ β δ) (id : ι) (fuel seq : Nat) :
    ∀ j, j < (runAbove w id fuel seq).length ∨ (runAbove w id fuel seq).length < fuel →
      j ≤ (runAbove w id fuel seq).length →
        committedAt w id (seq + j + 1) = (runAbove w id fuel seq)[j]? := by
  induction fuel generalizing seq with
  | zero => simp [runAbove]
  | succ fuel ih =>
    intro j hj hle
    rw [runAbove] at hj hle ⊢
    cases hp : committedAt w id (seq + 1) with
    | none =>
      simp only [hp, List.length_nil, Nat.le_zero] at hle
      subst hle
      simpa using hp
    | some p =>
      cases j with
      | zero => simpa using hp
      | succ j =>
        simp only [hp, List.length_cons] at hj hle
        have hnext := ih (seq + 1) j (by omega) (by omega)
        rw [show seq + (j + 1) + 1 = seq + 1 + j + 1 by omega, hnext]
        simp

/-- A run of `n` entries above `seq` takes `n` keys of the store. -/
theorem length_le_keys (w : LogWorld ι τ β δ) (id : ι) (seq : Nat) {n : Nat}
    (h : ∀ j < n, (committedAt w id (seq + j + 1)).isSome) : n ≤ w.blobs.keys.length := by
  have hsub : ((List.range n).map fun j => (Key.log id (seq + j + 1) : Key ι τ)) ⊆
      w.blobs.keys := by
    intro k hk
    obtain ⟨j, hj, rfl⟩ := List.mem_map.mp hk
    obtain ⟨p, hp⟩ := Option.isSome_iff_exists.mp (h j (List.mem_range.mp hj))
    obtain ⟨e, he, _, _⟩ := committedAt_eq_some.mp hp
    obtain ⟨b, hb, _⟩ := Option.bind_eq_some_iff.mp he
    have hsome : (w.blobs.lookup (.log id (seq + j + 1))).isSome :=
      Option.isSome_iff_exists.mpr ⟨b, hb⟩
    exact AList.mem_keys.mp (AList.lookup_isSome.mp hsome)
  have hnodup : ((List.range n).map fun j => (Key.log id (seq + j + 1) : Key ι τ)).Nodup := by
    refine List.nodup_range.map ?_
    intro i j hij
    simp only [Key.log.injEq, true_and] at hij
    omega
  simpa using (List.subperm_of_subset hnodup hsub).length_le

theorem maximalRun_spec (w : LogWorld ι τ β δ) (id : ι) (seq : Nat) :
    IsMaximalRun w id seq (maximalRun w id seq) := by
  have hspec := runAbove_spec w id (w.blobs.keys.length + 1) seq
  have hle : (runAbove w id (w.blobs.keys.length + 1) seq).length ≤ w.blobs.keys.length := by
    refine length_le_keys w id seq fun j hj => ?_
    rw [hspec j (.inl hj) (by omega), List.getElem?_eq_getElem hj]
    rfl
  exact fun j hj => hspec j (.inr (by omega)) hj

theorem IsMaximalRun.eq {w : LogWorld ι τ β δ} {id : ι} {seq : Nat} {ps : List (LogPayload β δ)}
    (h : IsMaximalRun w id seq ps) : maximalRun w id seq = ps := by
  have hspec := maximalRun_spec w id seq
  have hlen : ∀ qs rs : List (LogPayload β δ), IsMaximalRun w id seq qs →
      IsMaximalRun w id seq rs → qs.length ≤ rs.length := by
    intro qs rs hq hr
    by_contra hlt
    have hend := hr rs.length (by omega)
    rw [hq rs.length (by omega)] at hend
    simp at hend
    omega
  have heq := Nat.le_antisymm (hlen _ _ hspec h) (hlen _ _ h hspec)
  apply List.ext_getElem?
  intro j
  by_cases hj : j ≤ ps.length
  · rw [← h j hj, hspec j (by omega)]
  · rw [List.getElem?_eq_none (by omega), List.getElem?_eq_none (by omega)]

/-- Operation number `n` works. -/
def Works (env : Nat → Env) (n : Nat) : Prop := (env n).fault = .none

instance (env : Nat → Env) (n : Nat) : Decidable (Works env n) :=
  inferInstanceAs (Decidable ((env n).fault = .none))

/-- A program that runs alone on a store that may fail. -/
abbrev ends (env : Nat → Env) (p : NotedTask ι τ β δ α) (n : Nat) (w : LogWorld ι τ β δ) :
    Ended (LogWorld ι τ β δ) α := p.solo node env n w

/-- The answer is `x` or an error, and it is `x` when every operation works. -/
def Yields (env : Nat → Env) (p : NotedTry ι τ β δ α) (n : Nat) (w : LogWorld ι τ β δ) (x : α) :
    Prop :=
  (∀ y, (ends env p n w).answer = .ok y → y = x) ∧
    ((∀ i, Works env i) → (ends env p n w).answer = .ok x)

theorem ends_state {env : Nat → Env} {p : NotedTask ι τ β δ α} (hp : p.Only NodeOp.IsRead)
    (n : Nat) (w : LogWorld ι τ β δ) : (ends env p n w).state = w :=
  (hp.solo node env Eq (fun _ => rfl) (fun _ _ _ h h' => h.trans h')
    (fun e _ s ho => (exec_read e ho s).symm) n w).symm

section Pass

variable (M : Images β δ) (w : LogWorld ι τ β δ) (id : ι) {env : Nat → Env} {n : Nat}

/-- A read that fails has no effect either way. -/
theorem exec_fails {o : StoreOp (Key ι τ) (Blob τ β δ)} (h : ¬ Works env n)
    (hread : w.effect o = w) : exec (env n) (.store o) w = (.error .unavailable, w) := by
  unfold Works at h
  cases hf : (env n).fault with
  | none => exact absurd hf h
  | failed => simp only [exec, hf]
  | lost => simp only [exec, hf, hread]

theorem ends_get (key : Key ι τ) (f : Option (Blob τ β δ) → NotedTry ι τ β δ α) :
    ends env ((Store.get key).attempt f) n w =
      if Works env n then ends env (f (w.get key)) (n + 1) w
      else ⟨.error .unavailable, n + 1, w⟩ := by
  by_cases h : Works env n
  · rw [if_pos h]
    change ends env (Prog.attempt (.ret (exec (env n) (.store (.get key)) w).1) f) (n + 1)
      (exec (env n) (.store (.get key)) w).2 = _
    rw [exec_works h]
    rfl
  · rw [if_neg h]
    change ends env (Prog.attempt (.ret (exec (env n) (.store (.get key)) w).1) f) (n + 1)
      (exec (env n) (.store (.get key)) w).2 = _
    rw [exec_fails w h rfl]
    rfl

theorem ends_list (pre : Key ι τ → Bool) (f : List (Key ι τ) → NotedTry ι τ β δ α) :
    ends env ((Store.list pre).attempt f) n w =
      if Works env n then ends env (f (w.blobs.keys.filter pre)) (n + 1) w
      else ⟨.error .unavailable, n + 1, w⟩ := by
  by_cases h : Works env n
  · rw [if_pos h]
    change ends env (Prog.attempt (.ret (exec (env n) (.store (.list pre)) w).1) f) (n + 1)
      (exec (env n) (.store (.list pre)) w).2 = _
    rw [exec_works h]
    rfl
  · rw [if_neg h]
    change ends env (Prog.attempt (.ret (exec (env n) (.store (.list pre)) w).1) f) (n + 1)
      (exec (env n) (.store (.list pre)) w).2 = _
    rw [exec_fails w h rfl]
    rfl

variable {w} in
theorem yields_ok {p : NotedTry ι τ β δ α} {x : α} (h : (ends env p n w).answer = .ok x) :
    Yields env p n w x := by
  refine ⟨fun y hy => ?_, fun _ => h⟩
  rw [h] at hy
  exact (Except.ok.inj hy).symm

variable {w} in
theorem yields_error {p : NotedTry ι τ β δ α} {x : α} {e : Error} {i : Nat}
    (h : (ends env p n w).answer = .error e) (hi : ¬ Works env i) : Yields env p n w x := by
  refine ⟨fun y hy => ?_, fun hall => absurd (hall i) hi⟩
  rw [h] at hy
  cases hy

variable {w} in
theorem yields_list {pre : Key ι τ → Bool} {f : List (Key ι τ) → NotedTry ι τ β δ α} {x : α}
    (h : Works env n) (hf : Yields env (f (w.blobs.keys.filter pre)) (n + 1) w x) :
    Yields env ((Store.list pre).attempt f) n w x := by
  unfold Yields at hf ⊢
  rwa [ends_list, if_pos h]

variable {w} in
/-- The first program's answer is known, and where it leaves off. -/
theorem Yields.after {γ : Type} {p : NotedTry ι τ β δ γ} {f : γ → NotedTry ι τ β δ α} {n' : Nat}
    {a : γ} {x : α} (hp : ends env p n w = ⟨.ok a, n', w⟩) (hf : Yields env (f a) n' w x) :
    Yields env (p.attempt f) n w x := by
  unfold Yields at hf ⊢
  rwa [ends, Prog.solo_attempt_of_eq node env hp]

variable {w} in
theorem Yields.attempt {γ : Type} {p : NotedTry ι τ β δ γ} {f : γ → NotedTry ι τ β δ α} {a : γ}
    {x : α} (hp : Yields env p n w a) (hs : (ends env p n w).state = w)
    (hf : ∀ n', Yields env (f a) n' w x) : Yields env (p.attempt f) n w x := by
  cases hans : (ends env p n w).answer with
  | error e =>
    have herr : (ends env (p.attempt f) n w).answer = .error e :=
      Prog.solo_attempt_error node env hans
    by_cases hall : ∀ i, Works env i
    · rw [hp.2 hall] at hans
      cases hans
    · obtain ⟨i, hi⟩ := not_forall.mp hall
      exact yields_error herr hi
  | ok b =>
    obtain rfl := hp.1 b hans
    have heq : ends env p n w = ⟨.ok b, (ends env p n w).next, w⟩ := by
      cases hr : ends env p n w
      simp_all
    exact .after heq (hf _)

/-- A read of the base takes a list, and a get if there is a base. -/
def baseReads : Nat := if (topBase w id).isSome then 2 else 1

theorem ends_readBase (h : ∀ i < baseReads w id, Works env (n + i)) :
    ends env (readBase M id) n w =
      ⟨.ok (baseImage M w id, baseSeq w id), n + baseReads w id, w⟩ := by
  have hlist : Works env n := h 0 (by unfold baseReads; split <;> omega)
  rw [readBase, ends_list, if_pos hlist]
  change ends env (match topBase w id with | some seq => _ | none => _) (n + 1) w = _
  unfold baseImage baseSeq baseReads
  cases htop : topBase w id with
  | none => rfl
  | some seq =>
    have hget : Works env (n + 1) := h 1 (by simp [baseReads, htop])
    simp only [ends_get, if_pos hget]
    rfl

theorem readBase_fails (h : ¬ ∀ i < baseReads w id, Works env (n + i)) :
    (ends env (readBase M id) n w).answer = .error .unavailable := by
  rw [readBase, ends_list]
  by_cases hlist : Works env n
  · rw [if_pos hlist]
    change (ends env (match topBase w id with | some seq => _ | none => _) (n + 1) w).answer = _
    cases htop : topBase w id with
    | none =>
      refine absurd (fun i hi => ?_) h
      simp only [baseReads, htop, Option.isSome_none, Bool.false_eq_true, if_false] at hi
      rwa [show n + i = n by omega]
    | some seq =>
      have hget : ¬ Works env (n + 1) := by
        refine fun hget => h fun i hi => ?_
        simp only [baseReads, htop, Option.isSome_some, if_true] at hi
        cases i with
        | zero => exact hlist
        | succ i => rwa [show n + (i + 1) = n + 1 by omega]
      simp only [ends_get, if_neg hget]
  · rw [if_neg hlist]

theorem ends_outcome (txn : τ) :
    ends env (outcome txn) n w =
      if Works env n then ⟨.ok (verdict w txn), n + 1, w⟩
      else ⟨.error .unavailable, n + 1, w⟩ := ends_get w _ _

theorem ends_committed (txn : τ) :
    ends env (committed txn) n w =
      ⟨decide (Works env n ∧ verdict w txn = some true), n + 1, w⟩ := by
  have hout : ends env (outcome txn) n w = _ := ends_outcome w txn
  by_cases h : Works env n
  · rw [if_pos h] at hout
    rw [committed, ends, Prog.solo_bind_of_eq node env hout]
    simp only [h, true_and]
    rcases verdict w txn with _ | _ | _ <;> rfl
  · rw [if_neg h] at hout
    rw [committed, ends, Prog.solo_bind_of_eq node env hout]
    simp only [h, false_and, decide_false]
    rfl

variable {id} {w} (env n)

/-- The next entry is committed: two reads decide whether the walk goes on above it. -/
theorem ends_walk_next {baseSeq seq bound : Nat} {keys : List Nat} (payloads : List _)
    {p : LogPayload β δ} (hp : committedAt w id (seq + 1) = some p) (hseq : baseSeq ≤ seq)
    (hkeys : Ahead baseSeq seq bound keys) (hbound : seq < bound) :
    ∃ keys', Ahead baseSeq (seq + 1) bound keys' ∧
      ends env (committedRun id baseSeq keys seq payloads) n w =
        if Works env n then
          if Works env (n + 1) then
            ends env (committedRun id baseSeq keys' (seq + 1) (payloads ++ [p])) (n + 2) w
          else ⟨.ok (seq, payloads), n + 2, w⟩
        else ⟨.error .unavailable, n + 1, w⟩ := by
  obtain ⟨e, he, hv, rfl⟩ := committedAt_eq_some.mp hp
  induction keys with
  | nil => exact absurd (hkeys.listed (seq + 1) (by omega) (by omega)) (by simp)
  | cons k keys ih =>
    rw [committedRun]
    by_cases hk : k ≤ baseSeq
    · rw [if_pos hk]
      exact ih (hkeys.skip hseq hk)
    · obtain rfl : k = seq + 1 := by
        by_contra hgap
        have := hkeys.gap hk hgap
        omega
      refine ⟨keys, hkeys.next, ?_⟩
      rw [if_neg hk, if_neg (by simp), ends_get]
      by_cases hget : Works env n
      · have hread : (w.get (.log id (seq + 1))).bind decodeEntry = some e := he
        rw [if_pos hget, if_pos hget]
        simp only [hread]
        rw [ends, Prog.solo_bind_of_eq node env (ends_committed w e.txn)]
        by_cases hout : Works env (n + 1)
        · simp only [hout, hv, and_self, decide_true, if_true]
        · simp only [hout, false_and, decide_false, if_false]
          rfl
      · rw [if_neg hget, if_neg hget]

/-- Nothing committed comes next: the walk ends where it is, or fails. -/
theorem ends_walk_last {baseSeq seq bound : Nat} {keys : List Nat}
    (payloads : List (LogPayload β δ)) (hp : committedAt w id (seq + 1) = none)
    (hseq : baseSeq ≤ seq) (hkeys : Ahead baseSeq seq bound keys) :
    Yields env (committedRun id baseSeq keys seq payloads) n w (seq, payloads) := by
  induction keys with
  | nil => exact yields_ok rfl
  | cons k keys ih =>
    rw [committedRun]
    by_cases hk : k ≤ baseSeq
    · rw [if_pos hk]
      exact ih (hkeys.skip hseq hk)
    rw [if_neg hk]
    by_cases hgap : k ≠ seq + 1
    · rw [if_pos hgap]
      exact yields_ok rfl
    obtain rfl : k = seq + 1 := by simpa using hgap
    rw [if_neg hgap]
    by_cases hget : Works env n
    · refine yields_ok ?_
      have hread : (w.get (.log id (seq + 1))).bind decodeEntry = entryAt w id (seq + 1) := rfl
      rw [ends_get, if_pos hget]
      simp only [hread]
      cases he : entryAt w id (seq + 1) with
      | none => rfl
      | some e =>
        have hv : verdict w e.txn ≠ some true := by
          intro hv
          simp [committedAt, he, hv] at hp
        simp only
        rw [ends, Prog.solo_bind_of_eq node env (ends_committed w e.txn)]
        simp only [hv, and_false, decide_false, Bool.false_eq_true, if_false]
        rfl
    · exact yields_error (by rw [ends_get, if_neg hget]) hget

/-- Counted from number `n`, the outcome get of the `j`-th entry is the first read to fail. -/
def SlipsAt (env : Nat → Env) (n j : Nat) : Prop :=
  (∀ i < 2 * j + 1, Works env (n + i)) ∧ ¬ Works env (n + 2 * j + 1)

theorem IsMaximalRun.next {seq : Nat} {p : LogPayload β δ} {ps : List (LogPayload β δ)}
    (h : IsMaximalRun w id seq (p :: ps)) :
    committedAt w id (seq + 1) = some p ∧ IsMaximalRun w id (seq + 1) ps := by
  refine ⟨by simpa using h 0 (by simp), fun j hj => ?_⟩
  have hnext := h (j + 1) (by simpa using hj)
  rw [show seq + 1 + j + 1 = seq + (j + 1) + 1 by omega, hnext]
  simp

/-- An outcome get that fails looks like the end of the committed run. -/
theorem ends_walk_slip {baseSeq seq bound j : Nat} {keys : List Nat}
    (payloads : List (LogPayload β δ)) {rest : List _} (hrest : IsMaximalRun w id seq rest)
    (hseq : baseSeq ≤ seq) (hkeys : Ahead baseSeq seq bound keys)
    (hbound : seq + rest.length ≤ bound) (hj : j < rest.length) (hslip : SlipsAt env n j) :
    ends env (committedRun id baseSeq keys seq payloads) n w =
      ⟨.ok (seq + j, payloads ++ rest.take j), n + 2 * j + 2, w⟩ := by
  induction j generalizing seq keys payloads rest n with
  | zero =>
    obtain _ | ⟨p, rest⟩ := rest
    · simp at hj
    obtain ⟨hp, _⟩ := hrest.next
    simp only [List.length_cons] at hbound
    obtain ⟨keys', _, heq⟩ := ends_walk_next env n payloads hp hseq hkeys (by omega)
    have hget : Works env n := hslip.1 0 (by omega)
    rw [heq, if_pos hget, if_neg hslip.2]
    simp
  | succ j ih =>
    obtain _ | ⟨p, rest⟩ := rest
    · simp at hj
    obtain ⟨hp, hnext⟩ := hrest.next
    simp only [List.length_cons] at hbound hj
    obtain ⟨keys', hkeys', heq⟩ := ends_walk_next env n payloads hp hseq hkeys (by omega)
    have hget : Works env n := hslip.1 0 (by omega)
    have hslip' : SlipsAt env (n + 2) j := by
      refine ⟨fun i hi => ?_, ?_⟩
      · rw [show n + 2 + i = n + (i + 2) by omega]
        exact hslip.1 (i + 2) (by omega)
      · rw [show n + 2 + 2 * j + 1 = n + 2 * (j + 1) + 1 by omega]
        exact hslip.2
    rw [heq, if_pos hget, if_pos (hslip.1 1 (by omega)),
      ih _ _ hnext (by omega) hkeys' (by omega) (by omega) hslip']
    simp only [List.append_assoc, List.singleton_append, List.take_succ_cons]
    rw [show seq + 1 + j = seq + (j + 1) by omega,
      show n + 2 + 2 * j + 2 = n + 2 * (j + 1) + 2 by omega]

/-- Otherwise the walk covers the whole run, or fails. -/
theorem ends_walk_whole {baseSeq seq bound : Nat} {keys : List Nat}
    (payloads : List (LogPayload β δ)) {rest : List _} (hrest : IsMaximalRun w id seq rest)
    (hseq : baseSeq ≤ seq) (hkeys : Ahead baseSeq seq bound keys)
    (hbound : seq + rest.length ≤ bound) (hslip : ∀ j < rest.length, ¬ SlipsAt env n j) :
    Yields env (committedRun id baseSeq keys seq payloads) n w
      (seq + rest.length, payloads ++ rest) := by
  induction rest generalizing seq keys payloads n with
  | nil =>
    have hp : committedAt w id (seq + 1) = none := by simpa using hrest 0 (by simp)
    simpa using ends_walk_last env n payloads hp hseq hkeys
  | cons p rest ih =>
    obtain ⟨hp, hnext⟩ := hrest.next
    simp only [List.length_cons] at hbound hslip
    obtain ⟨keys', hkeys', heq⟩ := ends_walk_next env n payloads hp hseq hkeys (by omega)
    by_cases hget : Works env n
    · have hout : Works env (n + 1) := by
        by_contra hout
        refine hslip 0 (by omega) ⟨fun i hi => ?_, hout⟩
        rwa [show n + i = n by omega]
      rw [if_pos hget, if_pos hout] at heq
      have hslip' : ∀ j < rest.length, ¬ SlipsAt env (n + 2) j := by
        refine fun j hj h => hslip (j + 1) (by omega) ⟨fun i hi => ?_, ?_⟩
        · match i with
          | 0 => exact hget
          | 1 => exact hout
          | i + 2 =>
            rw [show n + (i + 2) = n + 2 + i by omega]
            exact h.1 i (by omega)
        · rw [show n + 2 * (j + 1) + 1 = n + 2 + 2 * j + 1 by omega]
          exact h.2
      have hrec := ih (n + 2) (payloads ++ [p]) hnext (by omega) hkeys' (by omega) hslip'
      simp only [List.append_assoc, List.singleton_append] at hrec
      rw [List.length_cons, show seq + (rest.length + 1) = seq + 1 + rest.length by omega]
      unfold Yields at hrec ⊢
      rwa [heq]
    · rw [if_neg hget] at heq
      exact yields_error (by rw [heq]) hget

variable (w id) {env}

/-- The listing covers the committed run above the base. -/
theorem ahead_listed : Ahead (baseSeq w id) (baseSeq w id)
    (baseSeq w id + (maximalRun w id (baseSeq w id)).length)
    (sortedSeqs id (w.blobs.keys.filter (logPrefix id))) where
  sorted := sortedSeqs_pairwise id (w.blobs.keys_nodup.filter _)
  ahead k _ := by omega
  listed s hlt hle := by
    obtain ⟨j, rfl⟩ : ∃ j, s = baseSeq w id + j + 1 := ⟨s - baseSeq w id - 1, by omega⟩
    have hp := maximalRun_spec w id (baseSeq w id) j (by omega)
    rw [List.getElem?_eq_getElem (by omega)] at hp
    obtain ⟨e, he, _⟩ := committedAt_eq_some.mp hp
    obtain ⟨b, hb, _⟩ := Option.bind_eq_some_iff.mp he
    rw [mem_sortedSeqs, mem_list_iff]
    exact ⟨by simp [hb], by simp [logPrefix, parseLogSeq]⟩

/-- The pass stops at the `j`-th entry of the run as if it were not committed: the get of its
outcome is the first read to fail, and the last read of the base works. -/
structure FalseGap (env : Nat → Env) (j : Nat) : Prop where
  within : j < (maximalRun w id (baseSeq w id)).length
  listed : ∀ i < baseReads w id + 1, Works env i
  slips : SlipsAt env (baseReads w id + 1) j
  reread : ∀ i < baseReads w id, Works env (baseReads w id + 1 + 2 * j + 2 + i)

theorem FalseGap.pass {j : Nat} (h : FalseGap w id env j) :
    (ends env (committedPass M id) 0 w).answer =
      .ok (some (baseImage M w id, baseSeq w id + j,
        (maximalRun w id (baseSeq w id)).take j)) := by
  have hfirst : ends env (readBase M id) 0 w = _ :=
    ends_readBase M w id fun i hi => by
      rw [Nat.zero_add]
      exact h.listed i (by omega)
  have hlist : Works env (0 + baseReads w id) := by
    rw [Nat.zero_add]
    exact h.listed _ (by omega)
  have hwalk := ends_walk_slip env (0 + baseReads w id + 1) [] (maximalRun_spec w id _)
    (Nat.le_refl _) (ahead_listed w id) (Nat.le_refl _) h.within
    (by rw [Nat.zero_add]; exact h.slips)
  have hlast : ends env (readBase M id) (0 + baseReads w id + 1 + 2 * j + 2) w = _ :=
    ends_readBase M w id fun i hi => by
      rw [Nat.zero_add]
      exact h.reread i hi
  rw [committedPass, ends, Prog.solo_attempt_of_eq node env hfirst]
  dsimp only
  rw [← ends, ends_list, if_pos hlist, ends, Prog.solo_attempt_of_eq node env hwalk]
  dsimp only
  rw [Prog.solo_attempt_of_eq node env hlast]
  dsimp only
  rw [if_neg (by omega)]
  rfl

theorem yields_readBase (n : Nat) :
    Yields env (readBase M id) n w (baseImage M w id, baseSeq w id) := by
  by_cases h : ∀ i < baseReads w id, Works env (n + i)
  · exact yields_ok (by rw [ends_readBase M w id h])
  · obtain ⟨i, hi⟩ := not_forall.mp h
    exact yields_error (readBase_fails M w id h) fun hw => hi fun _ => hw

/-- A pass without such a gap finds the whole run, or fails. -/
theorem pass_whole (h : ∀ j, ¬ FalseGap w id env j) :
    Yields env (committedPass M id) 0 w
      (some (baseImage M w id, baseSeq w id + (maximalRun w id (baseSeq w id)).length,
        maximalRun w id (baseSeq w id))) := by
  rw [committedPass]
  by_cases hfirst : ∀ i < baseReads w id, Works env (0 + i)
  swap
  · obtain ⟨i, hi⟩ := not_forall.mp hfirst
    exact yields_error (Prog.solo_attempt_error node env (readBase_fails M w id hfirst))
      fun hw => hi fun _ => hw
  refine .after (ends_readBase M w id hfirst) ?_
  by_cases hlist : Works env (0 + baseReads w id)
  swap
  · exact yields_error (by rw [ends_list, if_neg hlist]) hlist
  refine yields_list hlist ?_
  by_cases hslip : ∃ j < (maximalRun w id (baseSeq w id)).length,
      SlipsAt env (0 + baseReads w id + 1) j
  · obtain ⟨j, hj, hslip⟩ := hslip
    have hlast : ¬ ∀ i < baseReads w id, Works env (0 + baseReads w id + 1 + 2 * j + 2 + i) := by
      intro hlast
      simp only [Nat.zero_add] at hlast hslip hlist hfirst
      refine h j ⟨hj, fun i hi => ?_, hslip, hlast⟩
      rcases Nat.lt_or_ge i (baseReads w id) with hlt | hge
      · exact hfirst i hlt
      · rwa [show i = baseReads w id by omega]
    obtain ⟨i, hi⟩ := not_forall.mp hlast
    refine .after (ends_walk_slip env _ [] (maximalRun_spec w id _) (Nat.le_refl _)
      (ahead_listed w id) (Nat.le_refl _) hj hslip) ?_
    exact yields_error (Prog.solo_attempt_error node env (readBase_fails M w id hlast))
      fun hw => hi fun _ => hw
  · refine Yields.attempt (ends_walk_whole env _ [] (maximalRun_spec w id _) (Nat.le_refl _)
      (ahead_listed w id) (Nat.le_refl _) fun j hj hs => hslip ⟨j, hj, hs⟩) ?_ fun n' => ?_
    · exact ends_state (onlyReads_committedRun ..) _ w
    · refine Yields.attempt (yields_readBase M w id n') ?_ fun n'' => ?_
      · exact ends_state (onlyReads_readBase ..) _ w
      · refine yields_ok ?_
        dsimp only
        rw [if_neg (by omega)]
        rfl

variable {M w id}

theorem foldCommitted_answer {base : β} {seq : Nat} {ps : List (LogPayload β δ)}
    (h : (ends env (committedPass M id) 0 w).answer = .ok (some (base, seq, ps))) :
    (ends env (foldCommitted M id) 0 w).answer = (fold M base ps).map fun img => (img, seq) := by
  rw [foldCommitted, foldCommittedTries, ends, Prog.attempt, Prog.solo_bind, ← ends, h]
  rfl

theorem committedSeq_answer {base : β} {seq : Nat} {ps : List (LogPayload β δ)}
    (h : (ends env (committedPass M id) 0 w).answer = .ok (some (base, seq, ps))) :
    (ends env (committedSeq M id) 0 w).answer = .ok seq := by
  rw [committedSeq, committedSeqTries, ends, Prog.attempt, Prog.solo_bind, ← ends, h]
  rfl

theorem foldCommitted_error {e : Error}
    (h : (ends env (committedPass M id) 0 w).answer = .error e) :
    (ends env (foldCommitted M id) 0 w).answer = .error e :=
  Prog.solo_attempt_error node env h

theorem committedSeq_error {e : Error}
    (h : (ends env (committedPass M id) 0 w).answer = .error e) :
    (ends env (committedSeq M id) 0 w).answer = .error e :=
  Prog.solo_attempt_error node env h

end Pass

end Fafo
