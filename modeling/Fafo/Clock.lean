import Mathlib.Data.Rat.Floor

/-! A node's clock: node time since boot, through its rate and the spells it was frozen. -/
namespace Fafo

inductive ClockPause where
  | running (skipped : Nat)
  | frozen (since skipped : Nat)
  deriving DecidableEq, Repr

/-- Real instants and durations are in nanoseconds. -/
structure NodeClock where
  birth : Nat
  rate : ℚ
  pause : ClockPause

namespace NodeClock

def new (birth : Nat) (rate : ℚ) : NodeClock := ⟨birth, rate, .running 0⟩

/-- Real time since boot, less what was spent frozen. -/
def effective (c : NodeClock) (real : Nat) : Nat :=
  match c.pause with
  | .running skipped => real - c.birth - skipped
  | .frozen since skipped => since - skipped

/-- Node time at a real instant. -/
def now (c : NodeClock) (real : Nat) : Nat := ⌊(c.effective real : ℚ) * c.rate⌋₊

def freeze (c : NodeClock) (real : Nat) : NodeClock :=
  match c.pause with
  | .running skipped => { c with pause := .frozen (real - c.birth) skipped }
  | .frozen .. => c

def thaw (c : NodeClock) (real : Nat) : NodeClock :=
  match c.pause with
  | .running _ => c
  | .frozen since skipped =>
    { c with pause := .running (skipped + (real - c.birth - since)) }

def nsPerMs : Nat := 1000000

def nowMs (c : NodeClock) (real : Nat) : Nat := c.now real / nsPerMs

theorem now_new (birth up : Nat) : (new birth 1).now (birth + up) = up := by
  simp [now, effective, new]

theorem effective_mono (c : NodeClock) {real real' : Nat} (h : real ≤ real') :
    c.effective real ≤ c.effective real' := by
  unfold effective
  cases c.pause with
  | running skipped =>
    dsimp only
    omega
  | frozen since skipped => exact le_rfl

theorem now_mono (c : NodeClock) {real real' : Nat} (h : real ≤ real') :
    c.now real ≤ c.now real' := by
  by_cases hrate : 0 ≤ c.rate
  · exact Nat.floor_le_floor
      (mul_le_mul_of_nonneg_right (Nat.cast_le.mpr (c.effective_mono h)) hrate)
  · have hzero : c.now real = 0 := Nat.floor_of_nonpos
      (mul_nonpos_of_nonneg_of_nonpos (Nat.cast_nonneg _) (not_le.mp hrate).le)
    omega

/-- Freezing a clock leaves the time it shows. -/
theorem effective_freeze (c : NodeClock) (real : Nat) :
    (c.freeze real).effective real = c.effective real := by
  unfold freeze effective
  cases hpause : c.pause <;> simp [hpause]

/-- A frozen clock resumes at the time it shows. -/
theorem effective_thaw (c : NodeClock) (real : Nat)
    (h : ∀ since skipped, c.pause = .frozen since skipped →
      since ≤ real - c.birth) :
    (c.thaw real).effective real = c.effective real := by
  unfold thaw effective
  cases hpause : c.pause with
  | running skipped => simp [hpause]
  | frozen since skipped =>
    have := h since skipped hpause
    dsimp only
    omega

end NodeClock

end Fafo
