import Mathlib.Data.List.AList
import Mathlib.Data.List.MinMax
import Mathlib.Algebra.BigOperators.Group.List.Basic
import Mathlib.Algebra.GroupWithZero.Nat

/-! Sums over the entries of an association list, and sums by key. -/
namespace Tally

variable {κ : Type} {β : κ → Type} [DecidableEq κ] {f : ∀ k, β k → Nat} {m : AList β} {k : κ}
  {v : β k}

/-- What the entries weigh together. -/
def total (f : ∀ k, β k → Nat) (m : AList β) : Nat := (m.entries.map fun e => f e.1 e.2).sum

/-- A map without one of its entries. -/
theorem total_erase (h : m.lookup k = some v) : total f (m.erase k) + f k v = total f m := by
  have hmem : k ∈ m.entries.keys := AList.lookup_isSome.mp (by rw [h]; rfl)
  obtain ⟨v', l₁, l₂, _, hsplit, herase⟩ := List.exists_of_kerase hmem
  have hv : v' = v := by
    have hin : ⟨k, v'⟩ ∈ m.entries := by
      rw [hsplit]
      exact List.mem_append_right _ List.mem_cons_self
    have := List.mem_dlookup m.nodupKeys hin
    exact Option.some.inj (this.symm.trans h)
  have hentries : (m.erase k).entries = l₁ ++ l₂ := herase
  simp only [total, hentries, hsplit, List.map_append, List.map_cons, List.sum_append,
    List.sum_cons, hv]
  omega

theorem erase_of_none (h : m.lookup k = none) : m.erase k = m := by
  apply AList.ext
  exact List.kerase_of_notMem_keys (AList.lookup_eq_none.mp h)

theorem total_insert : total f (m.insert k v) = total f (m.erase k) + f k v := by
  simp only [total, AList.entries_insert, List.map_cons, List.sum_cons]
  exact Nat.add_comm _ _

theorem le_total (h : m.lookup k = some v) : f k v ≤ total f m := by
  have := total_erase (f := f) h
  omega

omit [DecidableEq κ] in
theorem total_perm {m' : AList β} (h : m'.entries.Perm m.entries) : total f m' = total f m :=
  (h.map _).sum_eq

theorem length_erase (h : m.lookup k = some v) :
    (m.erase k).entries.length + 1 = m.entries.length := by
  have := total_erase (f := fun _ _ => 1) h
  simpa [total] using this

variable {α : Type} (key : α → κ) (weight : α → Nat)

/-- Each key that occurs, with the weights of its elements summed up. -/
def byKey (xs : List α) : AList fun _ : κ => Nat :=
  xs.foldl (fun m x => m.insert (key x) ((m.lookup (key x)).getD 0 + weight x)) ∅

theorem lookup_foldl_byKey (xs : List α) (m : AList fun _ : κ => Nat) (k : κ) :
    (xs.foldl (fun m x => m.insert (key x) ((m.lookup (key x)).getD 0 + weight x)) m).lookup k =
      if (∃ x ∈ xs, key x = k) then
        some ((m.lookup k).getD 0 + ((xs.filter fun x => key x = k).map weight).sum)
      else m.lookup k := by
  induction xs generalizing m with
  | nil => simp
  | cons x xs ih =>
    rw [List.foldl_cons, ih]
    by_cases hx : key x = k
    · subst hx
      by_cases hxs : ∃ y ∈ xs, key y = key x
      · simp [hxs, Nat.add_assoc]
      · have hnone : xs.filter (fun y => key y = key x) = [] := by
          rw [List.filter_eq_nil_iff]
          intro y hy hkey
          exact hxs ⟨y, hy, of_decide_eq_true hkey⟩
        simp [hxs, hnone]
    · simp [hx, AList.lookup_insert_ne (Ne.symm hx)]

theorem lookup_byKey (xs : List α) (k : κ) :
    (byKey key weight xs).lookup k =
      if (∃ x ∈ xs, key x = k) then some ((xs.filter fun x => key x = k).map weight).sum
      else none := by
  rw [byKey, lookup_foldl_byKey]
  simp

/-- A heaviest entry of a map of weights, if there is any. -/
def heaviest (m : AList fun _ : κ => Nat) : Option κ :=
  (m.entries.argmax Sigma.snd).map Sigma.fst

theorem heaviest_eq_none {m : AList fun _ : κ => Nat} :
    heaviest m = none ↔ ∀ k, m.lookup k = none := by
  rw [heaviest, Option.map_eq_none_iff, List.argmax_eq_none]
  constructor
  · intro h k
    rw [AList.lookup_eq_none, AList.mem_keys, AList.keys, h]
    simp
  · intro h
    refine List.eq_nil_iff_forall_not_mem.mpr fun e he => ?_
    have := AList.mem_lookup_iff.mpr he
    rw [h e.1] at this
    cases this

theorem heaviest_spec {m : AList fun _ : κ => Nat} {k : κ} (h : heaviest m = some k) :
    ∃ n, m.lookup k = some n ∧ ∀ k' n', m.lookup k' = some n' → n' ≤ n := by
  obtain ⟨e, he, rfl⟩ := Option.map_eq_some_iff.mp h
  refine ⟨e.2, AList.mem_lookup_iff.mpr (List.argmax_mem he), fun k' n' hk' => ?_⟩
  exact List.le_of_mem_argmax (f := Sigma.snd) (AList.mem_lookup_iff.mp hk') he

end Tally
