import Mathlib.Order.Lattice

/-! Half-open intervals of a linear order, in a row, and joined where one starts at the end of the
one before. -/
namespace Intervals

variable {α : Type} [LinearOrder α]

/-- `x` is in one of the intervals. -/
def Covers (rs : List (α × α)) (x : α) : Prop := ∃ r ∈ rs, r.1 ≤ x ∧ x < r.2

/-- One more interval, behind the ones so far; of these the last comes first. -/
def extend (rs : List (α × α)) (r : α × α) : List (α × α) :=
  match rs with
  | [] => [r]
  | last :: rest => if last.2 = r.1 then (last.1, r.2) :: rest else r :: last :: rest

/-- Something is missing between any two of the intervals; the last comes first. -/
structure Apart (rs : List (α × α)) : Prop where
  proper : ∀ r ∈ rs, r.1 ≤ r.2
  apart : rs.Pairwise fun r' r => r.2 < r'.1

variable {rs done : List (α × α)} {r : α × α} {x : α}

theorem apart_nil : Apart ([] : List (α × α)) where
  proper _ h := by cases h
  apart := List.Pairwise.nil

theorem covers_nil : ¬ Covers ([] : List (α × α)) x := by
  rintro ⟨r, hr, _⟩
  cases hr

theorem covers_cons : Covers (r :: rs) x ↔ (r.1 ≤ x ∧ x < r.2) ∨ Covers rs x := by
  simp [Covers]

theorem Apart.extend (h : Apart rs) (hr : r.1 ≤ r.2) (hafter : ∀ last ∈ rs.head?, last.2 ≤ r.1) :
    Apart (extend rs r) := by
  cases rs with
  | nil => exact ⟨by simpa [Intervals.extend] using hr, List.pairwise_singleton _ _⟩
  | cons last rest =>
    have hlast : last.2 ≤ r.1 := hafter last rfl
    have hproper := h.proper last List.mem_cons_self
    obtain ⟨hbelow, hrest⟩ := List.pairwise_cons.mp h.apart
    rw [Intervals.extend]
    split_ifs with htouch
    · constructor
      · refine List.forall_mem_cons.mpr ⟨?_, fun q hq => h.proper q (List.mem_cons_of_mem _ hq)⟩
        exact hproper.trans (hlast.trans hr)
      · exact List.pairwise_cons.mpr ⟨hbelow, hrest⟩
    · constructor
      · exact List.forall_mem_cons.mpr ⟨hr, h.proper⟩
      · refine List.pairwise_cons.mpr ⟨List.forall_mem_cons.mpr ⟨?_, fun q hq => ?_⟩, h.apart⟩
        · exact lt_of_le_of_ne hlast htouch
        · exact (hbelow q hq).trans_le (hproper.trans hlast)

theorem covers_extend (h : Apart rs) (hr : r.1 ≤ r.2) :
    Covers (extend rs r) x ↔ Covers rs x ∨ (r.1 ≤ x ∧ x < r.2) := by
  cases rs with
  | nil => simp [extend, Covers]
  | cons last rest =>
    have hproper := h.proper last List.mem_cons_self
    rw [extend]
    split_ifs with htouch
    · rw [covers_cons, covers_cons, ← htouch]
      rw [← htouch] at hr
      have hjoin : (last.1 ≤ x ∧ x < r.2) ↔
          (last.1 ≤ x ∧ x < last.2) ∨ (last.2 ≤ x ∧ x < r.2) := by
        constructor
        · rintro ⟨hfrom, hto⟩
          rcases lt_or_ge x last.2 with hlt | hge
          · exact .inl ⟨hfrom, hlt⟩
          · exact .inr ⟨hge, hto⟩
        · rintro (⟨hfrom, hto⟩ | ⟨hfrom, hto⟩)
          · exact ⟨hfrom, hto.trans_le hr⟩
          · exact ⟨hproper.trans hfrom, hto⟩
      rw [hjoin]
      exact or_right_comm
    · rw [covers_cons]
      exact or_comm

theorem head_extend : ∀ last ∈ (extend rs r).head?, last.2 = r.2 := by
  intro last hlast
  cases rs with
  | nil =>
    cases hlast
    rfl
  | cons q rest =>
    rw [extend] at hlast
    split_ifs at hlast
    · cases hlast
      rfl
    · cases hlast
      rfl

/-- Intervals in a row are joined to ones that are apart, and cover the same. -/
theorem apart_foldl (hproper : ∀ r ∈ rs, r.1 ≤ r.2) (hrow : rs.Pairwise fun r r' => r.2 ≤ r'.1)
    (hdone : Apart done) (hafter : ∀ last ∈ done.head?, ∀ r ∈ rs, last.2 ≤ r.1) :
    Apart (rs.foldl extend done) ∧
      ∀ x, Covers (rs.foldl extend done) x ↔ Covers done x ∨ Covers rs x := by
  induction rs generalizing done with
  | nil => exact ⟨hdone, fun x => by simp [covers_nil]⟩
  | cons r rs ih =>
    obtain ⟨hr, hproper⟩ := List.forall_mem_cons.mp hproper
    obtain ⟨hnext, hrow⟩ := List.pairwise_cons.mp hrow
    have hthis := hdone.extend hr fun last hlast => hafter last hlast r List.mem_cons_self
    obtain ⟨hapart, hcovers⟩ := ih hproper hrow hthis fun last hlast q hq => by
      rw [head_extend last hlast]
      exact hnext q hq
    refine ⟨hapart, fun x => ?_⟩
    rw [List.foldl_cons, hcovers, covers_extend hdone hr, covers_cons, or_assoc]

end Intervals
