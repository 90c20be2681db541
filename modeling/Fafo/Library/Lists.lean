import Mathlib.Data.List.Basic
import Mathlib.Data.List.Forall2
import Mathlib.Order.Lattice

/-! Facts about lists that several modules share. -/
namespace Lists

variable {α β : Type}

theorem isPrefixOf?_append [BEq α] [LawfulBEq α] (pre rest : List α) :
    pre.isPrefixOf? (pre ++ rest) = some rest :=
  List.isPrefixOf?_eq_some_iff_append_eq.mpr rfl

theorem max?_perm {xs ys : List Nat} (h : xs.Perm ys) : xs.max? = ys.max? := by
  ext n
  rw [List.max?_eq_some_iff, List.max?_eq_some_iff, h.mem_iff]
  exact and_congr_right fun _ => forall_congr' fun m => by rw [h.mem_iff]

theorem max?_concat (xs : List Nat) (n : Nat) :
    (xs ++ [n]).max? = some ((xs.max?.getD n).max n) := by
  cases xs with
  | nil => simp
  | cons x xs =>
    rw [List.cons_append, List.max?_cons', List.foldl_concat, List.max?_cons', Option.getD_some]

theorem filterMap_some {f : α → Option α} {xs : List α} (h : ∀ x ∈ xs, f x = some x) :
    xs.filterMap f = xs := by
  induction xs with
  | nil => rfl
  | cons x xs ih =>
    rw [List.filterMap_cons_some (h x List.mem_cons_self),
      ih fun y hy => h y (List.mem_cons_of_mem _ hy)]

/-- Each element of two related lists has its like in the other. -/
theorem exists_related {R : α → β → Prop} {xs : List α} {ys : List β} (h : List.Forall₂ R xs ys)
    {x : α} (hx : x ∈ xs) : ∃ y ∈ ys, R x y := by
  induction h with
  | nil => cases hx
  | @cons a b l₁ l₂ hab _ ih =>
    obtain rfl | hrest := List.mem_cons.mp hx
    · exact ⟨b, List.mem_cons_self, hab⟩
    · obtain ⟨y, hy, hR⟩ := ih hrest
      exact ⟨y, List.mem_cons_of_mem _ hy, hR⟩

end Lists
