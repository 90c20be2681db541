import Fafo.Store

/-! The dates that requests are stamped with are those of the calendar. -/
namespace Fafo.R2

/-- Year, month and day. -/
abbrev Date := Int × Nat × Nat

/-- Days since the epoch to the date. -/
def civilFromDays (z : Int) : Date :=
  let z := z + 719468
  let era := (if 0 ≤ z then z else z - 146096).tdiv 146097
  let doe := (z - era * 146097).toNat
  let yoe := (doe - doe / 1460 + doe / 36524 - doe / 146096) / 365
  let y := (yoe : Int) + era * 400
  let doy := doe - (365 * yoe + yoe / 4 - yoe / 100)
  let mp := (5 * doy + 2) / 153
  let d := doy - (153 * mp + 2) / 5 + 1
  let m := if mp < 10 then mp + 3 else mp - 9
  (y + (if m ≤ 2 then 1 else 0), m, d)

def leap (y : Int) : Bool := y % 4 = 0 ∧ (y % 100 ≠ 0 ∨ y % 400 = 0)

def monthDays (leap : Bool) (m : Nat) : Nat :=
  if m = 2 then (if leap then 29 else 28)
  else if m = 4 ∨ m = 6 ∨ m = 9 ∨ m = 11 then 30
  else 31

def nextDay : Date → Date
  | (y, m, d) =>
    if d < monthDays (leap y) m then (y, m, d + 1)
    else if m < 12 then (y, m + 1, 1)
    else (y + 1, 1, 1)

/-- The days before a year of an era. -/
def before (yoe : Nat) : Nat := 365 * yoe + yoe / 4 - yoe / 100 + yoe / 400

/-- A day of an era, less the leap days before it. -/
def ordinary (doe : Nat) : Nat := doe - doe / 1460 + doe / 36524 - doe / 146096

theorem ordinary_succ (doe : Nat) : ordinary doe ≤ ordinary (doe + 1) := by
  have hfour (n : Nat) : n / 146096 = n / 36524 / 4 := (Nat.div_div_eq_div_mul n 36524 4).symm
  unfold ordinary
  rw [hfour, hfour]
  omega

theorem ordinary_mono {a b : Nat} (h : a ≤ b) : ordinary a ≤ ordinary b := by
  induction h with
  | refl => exact Nat.le_refl _
  | step _ ih => exact Nat.le_trans ih (ordinary_succ _)

/-- The first and the last day of each year of an era. -/
theorem ordinary_bounds : ∀ yoe < 400, 365 * yoe ≤ ordinary (before yoe) ∧
    ordinary (before (yoe + 1) - 1) < 365 * (yoe + 1) := by decide +kernel

/-- A day of a year is one of that year. -/
theorem year_of_day {yoe doe : Nat} (hyoe : yoe < 400) (hlow : before yoe ≤ doe)
    (hhigh : doe < before (yoe + 1)) : ordinary doe / 365 = yoe := by
  obtain ⟨hfirst, hlast⟩ := ordinary_bounds yoe hyoe
  have hge := ordinary_mono hlow
  have hle : ordinary doe ≤ ordinary (before (yoe + 1) - 1) := ordinary_mono (by omega)
  omega

/-- Every day of an era is one of its years. -/
theorem exists_year {n doe : Nat} (h : doe < before n) :
    ∃ yoe < n, before yoe ≤ doe ∧ doe < before (yoe + 1) := by
  induction n with
  | zero => cases h
  | succ n ih =>
    by_cases hn : doe < before n
    · obtain ⟨yoe, hyoe, hbounds⟩ := ih hn
      exact ⟨yoe, Nat.lt_succ_of_lt hyoe, hbounds⟩
    · exact ⟨n, Nat.lt_succ_self n, Nat.not_lt.mp hn, h⟩

/-- The month and the day of a day of a year that begins in March. -/
def monthDay (doy : Nat) : Nat × Nat :=
  let mp := (5 * doy + 2) / 153
  (if mp < 10 then mp + 3 else mp - 9, doy - (153 * mp + 2) / 5 + 1)

def dateOf (year : Int) (doy : Nat) : Date :=
  (year + (if (monthDay doy).1 ≤ 2 then 1 else 0), monthDay doy)

/-- The day is one of that year, which begins in March. -/
structure IsDay (z : Int) (year : Int) (doy : Nat) : Prop where
  count : z + 719468 = 365 * year + year / 4 - year / 100 + year / 400 + doy
  lt : doy < if leap (year + 1) then 366 else 365

/-- An era has as many leap days as any other. -/
theorem before_succ (era : Int) {yoe : Nat} (h : yoe < 400) :
    before (yoe + 1) = before yoe + if leap (400 * era + yoe + 1) then 366 else 365 := by
  unfold before leap
  split
  · next hleap =>
    rw [decide_eq_true_iff] at hleap
    omega
  · next hleap =>
    rw [decide_eq_true_iff] at hleap
    omega

theorem isDay_iff {z era : Int} {yoe doy : Nat} (h : yoe < 400) :
    IsDay z (400 * era + yoe) doy ↔
      z + 719468 = 146097 * era + (before yoe + doy : Nat) ∧
        before yoe + doy < before (yoe + 1) := by
  have hcount : 365 * (400 * era + yoe) + (400 * era + yoe) / 4 - (400 * era + yoe) / 100 +
      (400 * era + yoe) / 400 = 146097 * era + before yoe := by
    unfold before
    omega
  have hlength := before_succ era h
  constructor
  · rintro ⟨hz, hlt⟩
    exact ⟨by omega, by omega⟩
  · rintro ⟨hz, hlt⟩
    exact ⟨by omega, by omega⟩

theorem exists_isDay (z : Int) : ∃ year doy, IsDay z year doy := by
  have hera : ((z + 719468) % 146097).toNat < before 400 := by
    have hbefore : before 400 = 146097 := by decide
    omega
  obtain ⟨yoe, hyoe, hlow, hhigh⟩ := exists_year hera
  refine ⟨400 * ((z + 719468) / 146097) + yoe, ((z + 719468) % 146097).toNat - before yoe, ?_⟩
  rw [isDay_iff hyoe]
  exact ⟨by omega, by omega⟩

/-- The division of a negative number is rounded towards zero. -/
theorem era_eq {z' era : Int} {doe : Nat} (h : z' = 146097 * era + doe) (hdoe : doe < 146097) :
    (if 0 ≤ z' then z' else z' - 146096).tdiv 146097 = era := by
  split
  · next hpos =>
    rw [Int.tdiv_eq_ediv_of_nonneg hpos]
    omega
  · next hneg =>
    have hflip : z' - 146096 = -(146096 - z') := by omega
    rw [hflip, Int.neg_tdiv, Int.tdiv_eq_ediv_of_nonneg (by omega)]
    omega

theorem civilFromDays_eq {z year : Int} {doy : Nat} (h : IsDay z year doy) :
    civilFromDays z = dateOf year doy := by
  obtain ⟨era, yoe, hyoe, rfl⟩ : ∃ (era : Int) (yoe : Nat), yoe < 400 ∧ year = 400 * era + yoe :=
    ⟨year / 400, (year % 400).toNat, by omega, by omega⟩
  obtain ⟨hz, hlt⟩ := (isDay_iff hyoe).mp h
  have hlast : before (yoe + 1) ≤ 146097 := by
    unfold before
    omega
  have hera := era_eq hz (by omega)
  have hdoe : (z + 719468 - era * 146097).toNat = before yoe + doy := by omega
  have hyear : ordinary (before yoe + doy) / 365 = yoe :=
    year_of_day hyoe (Nat.le_add_right _ _) hlt
  have hdoy : before yoe + doy - (365 * yoe + yoe / 4 - yoe / 100) = doy := by
    unfold before
    omega
  unfold ordinary at hyear
  simp only [civilFromDays, hera, hdoe, hyear, hdoy, dateOf, monthDay]
  rw [Int.add_comm (yoe : Int), Int.mul_comm era]
  rfl

/-- A day is followed by one of its year, or by the first of the next. -/
theorem IsDay.next {z year : Int} {doy : Nat} (h : IsDay z year doy) :
    IsDay (z + 1) (if doy + 1 < (if leap (year + 1) then 366 else 365) then year else year + 1)
      (if doy + 1 < (if leap (year + 1) then 366 else 365) then doy + 1 else 0) := by
  obtain ⟨hcount, hlt⟩ := h
  by_cases hsame : doy + 1 < if leap (year + 1) then 366 else 365
  · rw [if_pos hsame, if_pos hsame]
    exact ⟨by omega, hsame⟩
  · rw [if_neg hsame, if_neg hsame]
    refine ⟨?_, by split <;> omega⟩
    unfold leap at hlt hsame
    split at hlt
    · next hleap =>
      rw [if_pos hleap] at hsame
      rw [decide_eq_true_iff] at hleap
      omega
    · next hleap =>
      rw [if_neg hleap] at hsame
      rw [decide_eq_true_iff] at hleap
      omega

/-- The days of a year in the calendar. -/
theorem monthDay_next : ∀ leap : Bool, ∀ doy < if leap then 366 else 365,
    let next := if doy + 1 < (if leap then 366 else 365) then doy + 1 else 0
    let date := monthDay doy
    if date.2 < monthDays leap date.1 then next = doy + 1 ∧ monthDay next = (date.1, date.2 + 1)
    else if date.1 < 12 then
      (next = 0 ↔ date.1 = 2) ∧ monthDay next = (date.1 + 1, 1)
    else next = doy + 1 ∧ date.1 = 12 ∧ monthDay next = (1, 1) := by decide +kernel

theorem monthDays_leap (year : Int) (m : Nat) :
    monthDays (leap (year + if m ≤ 2 then 1 else 0)) m = monthDays (leap (year + 1)) m := by
  unfold monthDays
  by_cases hm : m = 2
  · subst hm
    rfl
  · simp [hm]

theorem nextDay_dateOf {year : Int} {doy : Nat}
    (h : doy < if leap (year + 1) then 366 else 365) :
    nextDay (dateOf year doy) = dateOf
      (if doy + 1 < (if leap (year + 1) then 366 else 365) then year else year + 1)
      (if doy + 1 < (if leap (year + 1) then 366 else 365) then doy + 1 else 0) := by
  have hnext := monthDay_next (leap (year + 1)) doy h
  have hday : nextDay (dateOf year doy) =
      if (monthDay doy).2 < monthDays (leap (year + 1)) (monthDay doy).1 then
        ((dateOf year doy).1, (monthDay doy).1, (monthDay doy).2 + 1)
      else if (monthDay doy).1 < 12 then ((dateOf year doy).1, (monthDay doy).1 + 1, 1)
      else ((dateOf year doy).1 + 1, 1, 1) := by
    rw [← monthDays_leap]
    rfl
  rw [hday]
  simp only [dateOf]
  by_cases hsame : doy + 1 < if leap (year + 1) then 366 else 365
  · simp only [if_pos hsame] at hnext ⊢
    split at hnext
    · next hday => rw [if_pos hday, hnext.2]
    · next hday =>
      rw [if_neg hday]
      split at hnext
      · next hmonth =>
        have hm : (monthDay doy).1 ≠ 2 := fun hm => absurd (hnext.1.mpr hm) (Nat.succ_ne_zero doy)
        have hlater : ((monthDay doy).1 + 1 ≤ 2) = ((monthDay doy).1 ≤ 2) := by
          rw [eq_iff_iff]
          omega
        rw [if_pos hmonth, hnext.2]
        simp only [hlater]
      · next hmonth =>
        rw [if_neg hmonth, hnext.2.2, hnext.2.1]
        simp
  · simp only [if_neg hsame] at hnext ⊢
    split at hnext
    · exact absurd hnext.1.symm (Nat.succ_ne_zero doy)
    · next hday =>
      rw [if_neg hday]
      split at hnext
      · next hmonth =>
        rw [if_pos hmonth, hnext.2, hnext.1.mp trivial]
        simp
      · exact absurd hnext.1.symm (Nat.succ_ne_zero doy)

/-- The epoch begins with 1970, and a day later is the next day of the calendar. -/
theorem dates_follow_calendar :
    civilFromDays 0 = (1970, 1, 1) ∧ ∀ z, civilFromDays (z + 1) = nextDay (civilFromDays z) := by
  refine ⟨by decide, fun z => ?_⟩
  obtain ⟨year, doy, hday⟩ := exists_isDay z
  rw [civilFromDays_eq hday, civilFromDays_eq hday.next, nextDay_dateOf hday.lt]

end Fafo.R2
