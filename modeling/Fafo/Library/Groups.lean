import Mathlib.Data.List.Basic
import Mathlib.Data.List.Lattice

/-! What a set of items drags along when groups of items stand or fall together. -/
namespace Groups

variable {α : Type} [DecidableEq α]

/-- The group and the set have an item in common. -/
def Meets (g s : List α) : Prop := ∃ x ∈ g, x ∈ s

instance (g s : List α) : Decidable (Meets g s) := inferInstanceAs (Decidable (∃ x ∈ g, x ∈ s))

/-- A group that meets the set joins it. -/
def join (s g : List α) : List α := if Meets g s then s ∪ g else s

/-- One pass over the groups. -/
def absorb (groups : List (List α)) (s : List α) : List α := groups.foldl join s

/-- Passes until one adds nothing. -/
def close (groups : List (List α)) : Nat → List α → List α
  | 0, s => s
  | fuel + 1, s => if absorb groups s ⊆ s then s else close groups fuel (absorb groups s)

/-- Every pass but the last takes in another group, so their number is fuel enough. -/
def closure (groups : List (List α)) (seed : List α) : List α := close groups groups.length seed

/-- A group that meets the set lies in it. -/
def Closed (groups : List (List α)) (s : List α) : Prop := ∀ g ∈ groups, Meets g s → g ⊆ s

variable {groups : List (List α)} {s t : List α}

omit [DecidableEq α] in
theorem Meets.mono {g : List α} (h : Meets g s) (hst : s ⊆ t) : Meets g t := by
  obtain ⟨x, hx, hs⟩ := h
  exact ⟨x, hx, hst hs⟩

theorem subset_join (s g : List α) : s ⊆ join s g := by
  intro x hx
  unfold join
  split_ifs
  · exact List.mem_union_left hx _
  · exact hx

theorem group_subset_join {g : List α} (h : Meets g s) : g ⊆ join s g := by
  intro x hx
  rw [join, if_pos h]
  exact List.mem_union_right _ hx

theorem subset_absorb (groups : List (List α)) (s : List α) : s ⊆ absorb groups s := by
  induction groups generalizing s with
  | nil => exact List.Subset.refl s
  | cons g groups ih => exact List.Subset.trans (subset_join s g) (ih _)

theorem group_subset_absorb {g : List α} (hg : g ∈ groups) (h : Meets g s) :
    g ⊆ absorb groups s := by
  induction groups generalizing s with
  | nil => cases hg
  | cons g' groups ih =>
    rcases List.mem_cons.mp hg with rfl | hg
    · exact List.Subset.trans (group_subset_join h) (subset_absorb groups _)
    · exact ih hg (h.mono (subset_join s g'))

/-- Whatever holds the start and splits no group holds the pass. -/
theorem absorb_within {P : α → Prop} (hP : ∀ g ∈ groups, (∃ x ∈ g, P x) → ∀ x ∈ g, P x)
    (hs : ∀ x ∈ s, P x) : ∀ x ∈ absorb groups s, P x := by
  induction groups generalizing s with
  | nil => exact hs
  | cons g groups ih =>
    refine ih (fun g hg => hP g (List.mem_cons_of_mem _ hg)) ?_
    intro x hx
    unfold join at hx
    split_ifs at hx with hmeets
    · obtain ⟨y, hy, hys⟩ := hmeets
      rcases List.mem_union_iff.mp hx with hx | hx
      · exact hs x hx
      · exact hP g List.mem_cons_self ⟨y, hy, hs y hys⟩ x hx
    · exact hs x hx

theorem absorb_subset (ht : Closed groups t) (hst : s ⊆ t) : absorb groups s ⊆ t :=
  fun _ hx => absorb_within (fun g hg hmeets => ht g hg hmeets) (fun _ hs => hst hs) _ hx

/-- A pass that adds something takes in a group that was not in the set. -/
theorem absorb_grows (h : ¬ absorb groups s ⊆ s) :
    ∃ g ∈ groups, ¬ g ⊆ s ∧ g ⊆ absorb groups s := by
  by_contra hnone
  push Not at hnone
  refine h (absorb_subset (fun g hg hmeets => ?_) fun x hx => hx)
  by_contra hg'
  exact hnone g hg hg' (group_subset_absorb hg hmeets)

theorem closed_of_absorb_subset (h : absorb groups s ⊆ s) : Closed groups s :=
  fun _ hg hmeets _ hx => h (group_subset_absorb hg hmeets hx)

/-- The groups that are not yet in the set. -/
def missing (groups : List (List α)) (s : List α) : Nat := (groups.filter fun g => ¬ g ⊆ s).length

theorem missing_absorb_lt (h : ¬ absorb groups s ⊆ s) :
    missing groups (absorb groups s) < missing groups s := by
  obtain ⟨g, hg, hout, hin⟩ := absorb_grows h
  have hfilter : groups.filter (fun g => ¬ g ⊆ absorb groups s) =
      (groups.filter fun g => ¬ g ⊆ s).filter fun g => ¬ g ⊆ absorb groups s := by
    rw [List.filter_filter]
    refine List.filter_congr fun g _ => ?_
    by_cases hs : g ⊆ s
    · simp [hs, List.Subset.trans hs (subset_absorb groups s)]
    · simp [hs]
  unfold missing
  rw [hfilter, List.length_filter_lt_length_iff_exists]
  exact ⟨g, List.mem_filter.mpr ⟨hg, by simpa using hout⟩, by simpa using hin⟩

theorem subset_close (groups : List (List α)) (fuel : Nat) (s : List α) :
    s ⊆ close groups fuel s := by
  induction fuel generalizing s with
  | zero => exact List.Subset.refl s
  | succ fuel ih =>
    rw [close]
    split_ifs
    · exact List.Subset.refl s
    · exact List.Subset.trans (subset_absorb groups s) (ih _)

theorem subset_closure (groups : List (List α)) (seed : List α) : seed ⊆ closure groups seed :=
  subset_close ..

theorem close_closed (fuel : Nat) (h : missing groups s ≤ fuel) :
    Closed groups (close groups fuel s) := by
  induction fuel generalizing s with
  | zero =>
    refine closed_of_absorb_subset (s := s) ?_
    by_contra hgrows
    have := missing_absorb_lt hgrows
    omega
  | succ fuel ih =>
    rw [close]
    split_ifs with hstable
    · exact closed_of_absorb_subset hstable
    · refine ih ?_
      have := missing_absorb_lt hstable
      omega

theorem close_of_stable (h : absorb groups s ⊆ s) (fuel : Nat) : close groups fuel s = s := by
  cases fuel with
  | zero => rfl
  | succ fuel => rw [close, if_pos h]

/-- Passes beyond the last one that is needed add nothing. -/
theorem close_eq_of_le {fuel n : Nat} (h : missing groups s ≤ fuel) (hn : fuel ≤ n) :
    close groups n s = close groups fuel s := by
  induction fuel generalizing s n with
  | zero =>
    refine close_of_stable ?_ n
    by_contra hgrows
    have := missing_absorb_lt hgrows
    omega
  | succ fuel ih =>
    obtain ⟨m, rfl⟩ : ∃ m, n = m + 1 := ⟨n - 1, by omega⟩
    rw [close, close]
    split_ifs with hstable
    · rfl
    · refine ih ?_ (by omega)
      have := missing_absorb_lt hstable
      omega

/-- The loop ends: any more passes lead to the same closure. -/
theorem close_eq_closure {n : Nat} (h : groups.length ≤ n) (seed : List α) :
    close groups n seed = closure groups seed :=
  close_eq_of_le (List.length_filter_le _ _) h

/-- No group straddles the closure. -/
theorem closure_closed (groups : List (List α)) (seed : List α) :
    Closed groups (closure groups seed) :=
  close_closed _ (List.length_filter_le _ _)

/-- Whatever holds the start and splits no group holds all that is closed over. -/
theorem close_within {P : α → Prop} (hP : ∀ g ∈ groups, (∃ x ∈ g, P x) → ∀ x ∈ g, P x)
    (fuel : Nat) (hs : ∀ x ∈ s, P x) : ∀ x ∈ close groups fuel s, P x := by
  induction fuel generalizing s with
  | zero => exact hs
  | succ fuel ih =>
    rw [close]
    split_ifs
    · exact hs
    · exact ih (absorb_within hP hs)

/-- The closure is the least closed set that holds the seed. -/
theorem close_subset (ht : Closed groups t) (fuel : Nat) (hst : s ⊆ t) :
    close groups fuel s ⊆ t :=
  fun _ hx => close_within (fun g hg hmeets => ht g hg hmeets) fuel (fun _ hs => hst hs) _ hx

theorem closure_subset (ht : Closed groups t) {seed : List α} (hseed : seed ⊆ t) :
    closure groups seed ⊆ t := close_subset ht _ hseed

/-- The closure of a seed is what its items drag along one by one. -/
theorem mem_closure_iff {seed : List α} {x : α} :
    x ∈ closure groups seed ↔ ∃ d ∈ seed, x ∈ closure groups [d] := by
  constructor
  · intro hx
    have hclosed : Closed groups (seed.flatMap fun d => closure groups [d]) := by
      intro g hg hmeets y hy
      obtain ⟨z, hz, hmem⟩ := hmeets
      obtain ⟨d, hd, hzd⟩ := List.mem_flatMap.mp hmem
      exact List.mem_flatMap.mpr ⟨d, hd, closure_closed groups [d] g hg ⟨z, hz, hzd⟩ hy⟩
    have hseed : seed ⊆ seed.flatMap fun d => closure groups [d] := by
      intro d hd
      exact List.mem_flatMap.mpr ⟨d, hd, subset_closure groups [d] List.mem_cons_self⟩
    exact List.mem_flatMap.mp (closure_subset hclosed hseed hx)
  · rintro ⟨d, hd, hx⟩
    refine closure_subset (closure_closed groups seed) ?_ hx
    intro y hy
    rw [List.mem_singleton.mp hy]
    exact subset_closure groups seed hd

end Groups
