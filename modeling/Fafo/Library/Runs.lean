import Mathlib.Logic.Basic

/-! Runs of a step function over lists of events, and the conditions they meet. -/
namespace Runs

variable {σ ε : Type}

/-- The state after the events. -/
def run (step : σ → ε → σ) (s : σ) (events : List ε) : σ := events.foldl step s

/-- Every event meets `good` in the state it happens in. -/
def Guarded (step : σ → ε → σ) (good : σ → ε → Prop) : σ → List ε → Prop
  | _, [] => True
  | s, e :: events => good s e ∧ Guarded step good (step s e) events

/-- Every state along the run meets `P`. -/
def Throughout (step : σ → ε → σ) (P : σ → Prop) : σ → List ε → Prop
  | s, [] => P s
  | s, e :: events => P s ∧ Throughout step P (step s e) events

variable {step : σ → ε → σ} {good : σ → ε → Prop} {I P : σ → Prop}

/-- An invariant of the good events holds throughout, and with it what it implies. -/
theorem Guarded.throughout (hstep : ∀ s e, I s → good s e → I (step s e)) (hP : ∀ s, I s → P s)
    {s : σ} (hs : I s) {events : List ε} (h : Guarded step good s events) :
    Throughout step P s events := by
  induction events generalizing s with
  | nil => exact hP s hs
  | cons e events ih => exact ⟨hP s hs, ih (hstep s e hs h.1) h.2⟩

/-- Under an invariant of the good events, they meet what it implies of them. -/
theorem Guarded.imp {good' : σ → ε → Prop} (hstep : ∀ s e, I s → good s e → I (step s e))
    (hgood : ∀ s e, I s → good s e → good' s e) {s : σ} (hs : I s) {events : List ε}
    (h : Guarded step good s events) : Guarded step good' s events := by
  induction events generalizing s with
  | nil => trivial
  | cons e events ih => exact ⟨hgood s e hs h.1, ih (hstep s e hs h.1) h.2⟩

/-- An invariant of every event. -/
theorem invariant (hstep : ∀ s e, I s → I (step s e)) (hP : ∀ s, I s → P s) {s : σ} (hs : I s)
    (events : List ε) : Throughout step P s events := by
  induction events generalizing s with
  | nil => exact hP s hs
  | cons e events ih => exact ⟨hP s hs, ih (hstep s e hs)⟩

/-- A guard that an invariant of every event reduces to one on the event alone. -/
theorem guarded_iff_forall {allowed : ε → Prop} (hstep : ∀ s e, I s → I (step s e))
    (hgood : ∀ s e, I s → (good s e ↔ allowed e)) {s : σ} (hs : I s) {events : List ε} :
    Guarded step good s events ↔ ∀ e ∈ events, allowed e := by
  induction events generalizing s with
  | nil => simp [Guarded]
  | cons e events ih =>
    rw [Guarded, hgood s e hs, ih (hstep s e hs), List.forall_mem_cons]

theorem Throughout.first {s : σ} {events : List ε} (h : Throughout step P s events) : P s := by
  cases events with
  | nil => exact h
  | cons e events => exact h.1

/-- `P` holds throughout a run of allowed events exactly when every one is good, if a bad one at
once breaks `P`. -/
theorem Guarded.throughout_iff {allowed : σ → ε → Prop}
    (hstep : ∀ s e, I s → allowed s e → good s e → I (step s e)) (hP : ∀ s, I s → P s)
    (hbad : ∀ s e, I s → allowed s e → ¬ good s e → ¬ P (step s e)) {s : σ} (hs : I s)
    {events : List ε} (h : Guarded step allowed s events) :
    Throughout step P s events ↔ Guarded step good s events := by
  induction events generalizing s with
  | nil => exact ⟨fun _ => trivial, fun _ => hP s hs⟩
  | cons e events ih =>
    obtain ⟨hallowed, hrest⟩ := h
    constructor
    · rintro ⟨_, hafter⟩
      have hgood : good s e :=
        Classical.by_contradiction fun hgood => hbad s e hs hallowed hgood hafter.first
      exact ⟨hgood, (ih (hstep s e hs hallowed hgood) hrest).mp hafter⟩
    · rintro ⟨hgood, hafter⟩
      exact ⟨hP s hs, (ih (hstep s e hs hallowed hgood) hrest).mpr hafter⟩

theorem guarded_true (s : σ) (events : List ε) : Guarded step (fun _ _ => True) s events := by
  induction events generalizing s with
  | nil => trivial
  | cons e events ih => exact ⟨trivial, ih _⟩

/-- `P` holds throughout exactly when every event is good, if a bad one at once breaks `P`. -/
theorem throughout_iff_guarded (hstep : ∀ s e, I s → good s e → I (step s e))
    (hP : ∀ s, I s → P s) (hbad : ∀ s e, I s → ¬ good s e → ¬ P (step s e)) {s : σ} (hs : I s)
    {events : List ε} : Throughout step P s events ↔ Guarded step good s events :=
  (guarded_true s events).throughout_iff (fun s e hs _ => hstep s e hs) hP
    (fun s e hs _ => hbad s e hs) hs

theorem Throughout.last {s : σ} {events : List ε} (h : Throughout step P s events) :
    P (run step s events) := by
  induction events generalizing s with
  | nil => exact h
  | cons e events ih => exact ih h.2

end Runs
