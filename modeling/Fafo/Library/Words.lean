import Mathlib.Algebra.Order.Floor.Div

/-! Arithmetic on 64-bit words, in a build that checks for overflow and in one that wraps. -/
namespace Words

/-- The number of words. -/
abbrev size : Nat := 2 ^ 64

/-- A debug build panics where a result is not a word, a release build wraps it. -/
inductive Build where
  | debug
  | release
  deriving DecidableEq

/-- The word for a sum or a product; `none` is a panic. -/
def fit (build : Build) (n : Nat) : Option Nat :=
  if n < size then some n
  else match build with
    | .debug => none
    | .release => some (n % size)

def add (build : Build) (a b : Nat) : Option Nat := fit build (a + b)

def mul (build : Build) (a b : Nat) : Option Nat := fit build (a * b)

def sub (build : Build) (a b : Nat) : Option Nat :=
  if b ≤ a then some (a - b)
  else match build with
    | .debug => none
    | .release => some (size + a - b)

/-- A sum of signed words. -/
def addSigned (build : Build) (a b : Int) : Option Int :=
  if -2 ^ 63 ≤ a + b ∧ a + b < 2 ^ 63 then some (a + b)
  else match build with
    | .debug => none
    | .release => some (Int.bmod (a + b) size)

/-- Division by zero panics in every build. -/
def div (a b : Nat) : Option Nat := if b = 0 then none else some (a / b)

/-- Division that rounds up: the quotient, and one more if something remains. -/
def divCeil (a b : Nat) : Option Nat :=
  if b = 0 then none else if a % b = 0 then some (a / b) else some (a / b + 1)

/-- A sum of words, from the left. -/
def sum (build : Build) (words : List Nat) : Option Nat := words.foldlM (add build) 0

variable {build : Build} {a b n m : Nat}

theorem fit_of_lt (h : n < size) : fit build n = some n := if_pos h

theorem mul_of_lt (h : a * b < size) : mul build a b = some (a * b) := fit_of_lt h

theorem add_of_lt (h : a + b < size) : add build a b = some (a + b) := fit_of_lt h

theorem sub_of_le (h : b ≤ a) : sub build a b = some (a - b) := if_pos h

/-- A result that does not fit is lost: what comes of it, if anything, falls short of it. -/
theorem fit_of_ge (hn : size ≤ n) (h : fit build n = some m) : m + size ≤ n := by
  cases build with
  | debug =>
    rw [fit, if_neg (by omega)] at h
    cases h
  | release =>
    rw [fit, if_neg (by omega)] at h
    obtain rfl := Option.some.inj h
    rw [Nat.mod_eq_sub_mod hn]
    have hle := Nat.mod_le (n - size) size
    omega

theorem fit_release (n : Nat) : fit .release n = some (n % size) := by
  unfold fit
  split_ifs with h
  · rw [Nat.mod_eq_of_lt h]
  · rfl

theorem fit_eq_none_iff : fit build n = none ↔ build = .debug ∧ size ≤ n := by
  cases build with
  | debug =>
    unfold fit
    split_ifs with h
    · simpa using h
    · simpa using h
  | release => simp [fit_release]

theorem fit_lt (h : fit build n = some m) : m < size := by
  by_cases hn : n < size
  · rw [fit_of_lt hn] at h
    rwa [← Option.some.inj h]
  · cases build with
    | debug =>
      rw [fit_eq_none_iff.mpr ⟨rfl, Nat.le_of_not_lt hn⟩] at h
      cases h
    | release =>
      rw [fit_release, Option.some_inj] at h
      rw [← h]
      exact Nat.mod_lt n (Nat.two_pow_pos 64)

/-- A word that stands for a sum may be added in its place. -/
theorem fit_add (h : fit build a = some m) (n : Nat) : add build m n = fit build (a + n) := by
  unfold add
  by_cases ha : a < size
  · rw [fit_of_lt ha] at h
    rw [Option.some.inj h]
  · cases build with
    | debug =>
      rw [fit_eq_none_iff.mpr ⟨rfl, Nat.le_of_not_lt ha⟩] at h
      cases h
    | release =>
      rw [fit_release, Option.some_inj] at h
      rw [fit_release, fit_release, ← h, Nat.mod_add_mod]

/-- And so may the word that is added. -/
theorem fit_bind_add (h : fit build a = some m) (n : Nat) :
    (fit build n).bind (add build m) = fit build (a + n) := by
  cases hn : fit build n with
  | none =>
    obtain ⟨hdebug, hge⟩ := fit_eq_none_iff.mp hn
    exact (fit_eq_none_iff.mpr ⟨hdebug, by omega⟩).symm
  | some k =>
    have hk : add build k m = fit build (n + m) := fit_add hn m
    calc add build m k = add build k m := by rw [add, add, Nat.add_comm]
      _ = fit build (m + n) := by rw [hk, Nat.add_comm]
      _ = fit build (a + n) := fit_add h n

theorem foldlM_add (h : fit build a = some m) (words : List Nat) :
    words.foldlM (add build) m = fit build (a + words.sum) := by
  induction words generalizing a m with
  | nil => exact h.symm
  | cons word words ih =>
    rw [List.foldlM_cons, fit_add h, List.sum_cons, ← Nat.add_assoc]
    cases hw : fit build (a + word) with
    | some w => exact ih hw
    | none =>
      obtain ⟨hdebug, hge⟩ := fit_eq_none_iff.mp hw
      exact (fit_eq_none_iff.mpr ⟨hdebug, by omega⟩).symm

/-- However the sum is taken, it is the word for the sum of the numbers, or a panic. -/
theorem sum_eq (build : Build) (words : List Nat) : sum build words = fit build words.sum := by
  rw [sum, foldlM_add (fit_of_lt (by decide)), Nat.zero_add]

theorem addSigned_of_lt {a b : Int} (hlow : 0 ≤ a + b) (hhigh : a + b < 2 ^ 63) :
    addSigned build a b = some (a + b) :=
  if_pos ⟨by omega, hhigh⟩

/-- A sum of two that are not negative, where it is no signed word, comes out negative if at all. -/
theorem addSigned_of_ge {a b c : Int} (hlow : 2 ^ 63 ≤ a + b) (hhigh : a + b < 2 ^ 64)
    (h : addSigned build a b = some c) : c < 0 := by
  unfold addSigned at h
  rw [if_neg (by omega)] at h
  cases build with
  | debug => cases h
  | release =>
    have hc := Option.some.inj h
    have hsize : ((size : Nat) : Int) = 2 ^ 64 := rfl
    rw [Int.bmod_def, hsize, Int.emod_eq_of_lt (by omega) hhigh, if_neg (by omega)] at hc
    omega

theorem div_of_pos (h : 0 < b) : div a b = some (a / b) := if_neg (by omega)

theorem divCeil_of_pos (h : 0 < b) : divCeil a b = some (a ⌈/⌉ b) := by
  have hsplit : b * (a / b) + a % b = a := Nat.div_add_mod a b
  have hrest : a % b < b := Nat.mod_lt a h
  rw [divCeil, if_neg (by omega)]
  by_cases hzero : a % b = 0
  · rw [if_pos hzero, Option.some_inj]
    apply Nat.le_antisymm
    · apply Nat.div_le_of_le_mul
      exact (ceilDiv_le_iff_le_mul h).mp (Nat.le_refl _)
    · rw [ceilDiv_le_iff_le_mul h]
      omega
  · rw [if_neg hzero, Option.some_inj]
    apply Nat.le_antisymm
    · apply Nat.div_lt_of_lt_mul
      have hle : a ≤ b * (a ⌈/⌉ b) := (ceilDiv_le_iff_le_mul h).mp (Nat.le_refl _)
      refine Nat.lt_of_le_of_ne hle fun heq => hzero ?_
      rw [heq]
      exact Nat.mul_mod_right b _
    · rw [ceilDiv_le_iff_le_mul h, Nat.mul_add]
      omega

end Words
