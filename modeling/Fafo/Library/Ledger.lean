import Mathlib.Algebra.BigOperators.Group.Finset.Basic
import Mathlib.Algebra.Order.BigOperators.Group.Finset
import Mathlib.Algebra.BigOperators.Group.Finset.Piecewise
import Mathlib.Tactic.Ring

/-! Ledgers of atomic transfers: conservation and solvency. -/

/-- The deltas posted to each account, in order. -/
abbrev Ledger (α : Type) := α → List Int

namespace Ledger

variable {α : Type} {accounts : Finset α} {opening : α → Int} {L : Ledger α}

/-- An account's value after its first `n` postings. -/
def valueAt (opening : α → Int) (L : Ledger α) (o : α) (n : Nat) : Int :=
  opening o + ((L o).take n).sum

def value (opening : α → Int) (L : Ledger α) (o : α) : Int := opening o + (L o).sum

theorem valueAt_length (o : α) {n : Nat} (h : (L o).length ≤ n) :
    L.valueAt opening o n = L.value opening o := by
  rw [valueAt, value, List.take_of_length_le h]

/-- Money is conserved, and no account was ever overdrawn or worth more than there is. -/
structure Sound (accounts : Finset α) (opening : α → Int) (L : Ledger α) : Prop where
  conserved : ∑ o ∈ accounts, L.value opening o = ∑ o ∈ accounts, opening o
  solvent : ∀ o ∈ accounts, ∀ n, 0 ≤ L.valueAt opening o n
  bounded : ∀ o ∈ accounts, ∀ n, L.valueAt opening o n ≤ ∑ o ∈ accounts, opening o

/-- Among solvent accounts, none is worth more than all of them. -/
theorem value_le_total
    (hconserved : ∑ o ∈ accounts, L.value opening o = ∑ o ∈ accounts, opening o)
    (hsolvent : ∀ o ∈ accounts, 0 ≤ L.value opening o) {o : α} (ho : o ∈ accounts) :
    L.value opening o ≤ ∑ o ∈ accounts, opening o := by
  rw [← hconserved]
  exact Finset.single_le_sum (f := fun o => L.value opening o) hsolvent ho

theorem sound_nil (hopening : ∀ o ∈ accounts, 0 ≤ opening o) :
    Sound accounts opening (fun _ => []) := by
  have hvalue : ∀ o, value opening (fun _ => []) o = opening o := by simp [value]
  have hconserved : ∑ o ∈ accounts, value opening (fun _ => []) o = ∑ o ∈ accounts, opening o := by
    simp [hvalue]
  refine ⟨hconserved, by simpa [valueAt] using hopening, fun o ho n => ?_⟩
  rw [valueAt_length o (by simp)]
  exact value_le_total hconserved (by simpa [hvalue] using hopening) ho

variable [DecidableEq α]

/-- One atomic transfer: a posting to each of two accounts. -/
def post (L : Ledger α) (a b : α) (da db : Int) : Ledger α := fun o =>
  if o = a then L o ++ [da] else if o = b then L o ++ [db] else L o

/-- The order of the two does not matter. -/
theorem post_comm {a b : α} (hne : a ≠ b) (L : Ledger α) (da db : Int) :
    L.post a b da db = L.post b a db da := by
  funext o
  unfold post
  by_cases ha : o = a
  · have hb : o ≠ b := ha ▸ hne
    rw [if_pos ha, if_neg hb, if_pos ha]
  · rw [if_neg ha, if_neg ha]

theorem value_post {a b : α} (hne : a ≠ b) (da db : Int) (o : α) :
    (L.post a b da db).value opening o = L.value opening o +
      ((if o = a then da else 0) + if o = b then db else 0) := by
  unfold value post
  by_cases ha : o = a
  · rw [if_pos ha, if_pos ha, if_neg (ha ▸ hne), List.sum_append, List.sum_singleton]
    ring
  · by_cases hb : o = b
    · rw [if_neg ha, if_neg ha, if_pos hb, if_pos hb, List.sum_append, List.sum_singleton]
      ring
    · simp [ha, hb]

/-- A posting leaves the earlier values as they were. -/
theorem valueAt_post (opening : α → Int) (L : Ledger α) (a b : α) (da db : Int) (o : α) (n : Nat) :
    (L.post a b da db).valueAt opening o n = L.valueAt opening o n ∨
      (L.post a b da db).valueAt opening o n = (L.post a b da db).value opening o := by
  rcases Nat.lt_or_ge (L o).length n with hlt | hge
  · refine .inr (valueAt_length o ?_)
    unfold post
    split_ifs
    · rw [List.length_append, List.length_singleton]
      omega
    · rw [List.length_append, List.length_singleton]
      omega
    · exact hlt.le
  · refine .inl ?_
    unfold valueAt post
    split_ifs
    · rw [List.take_append_of_le_length hge]
    · rw [List.take_append_of_le_length hge]
    · rfl

/-- A transfer that both accounts can afford keeps the ledger sound. -/
theorem Sound.post (h : Sound accounts opening L) {a b : α} {da db : Int} (hne : a ≠ b)
    (ha : a ∈ accounts) (hb : b ∈ accounts) (hzero : da + db = 0)
    (haFunds : 0 ≤ L.value opening a + da) (hbFunds : 0 ≤ L.value opening b + db) :
    Sound accounts opening (L.post a b da db) := by
  have hvalue : ∀ o, (L.post a b da db).value opening o = L.value opening o +
      ((if o = a then da else 0) + if o = b then db else 0) := value_post hne da db
  have hconserved : ∑ o ∈ accounts, (L.post a b da db).value opening o =
      ∑ o ∈ accounts, opening o := by
    simp only [hvalue, Finset.sum_add_distrib, Finset.sum_ite_eq', ha, hb, if_true, hzero,
      h.conserved, add_zero]
  have hsolvent : ∀ o ∈ accounts, 0 ≤ (L.post a b da db).value opening o := by
    intro o ho
    have hold : 0 ≤ L.value opening o := by
      rw [← valueAt_length o le_rfl]
      exact h.solvent o ho _
    rw [hvalue]
    by_cases hoa : o = a
    · subst hoa
      simpa [hne] using haFunds
    · by_cases hob : o = b
      · subst hob
        simpa [hoa] using hbFunds
      · simpa [hoa, hob] using hold
  refine ⟨hconserved, fun o ho n => ?_, fun o ho n => ?_⟩
  · rcases valueAt_post opening L a b da db o n with heq | heq <;> rw [heq]
    · exact h.solvent o ho n
    · exact hsolvent o ho
  · rcases valueAt_post opening L a b da db o n with heq | heq <;> rw [heq]
    · exact h.bounded o ho n
    · exact value_le_total hconserved hsolvent ho

end Ledger
