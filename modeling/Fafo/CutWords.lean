import Mathlib.Algebra.Order.BigOperators.Group.List
import Fafo.Cutting
import Fafo.Library.Words

/-! How a boat is cut where the bytes are counted in words. -/
namespace Fafo.Boats

open Words (Build fit)

variable {ι ω : Type} [DecidableEq ι]

/-- As `Cut.board`, with the sums in words; `none` is a panic. -/
def Cut.boardWords (build : Build) (maxBoatBytes : Nat) (b : Boats ι ω) (cut : Cut ι)
    (component : List Nat) : Option (Cut ι) :=
  let compObjects := b.objectsOf component
  (Words.sum build (compObjects.map b.size)).bind fun compBytes =>
  (Words.add build cut.bytes compBytes).map fun bytes =>
    if cut.selected ≠ [] ∧ maxBoatBytes < bytes then
      { cut with leftover := cut.leftover ++ component }
    else
      { selected := cut.selected ++ component
        objects := cut.objects ∪ compObjects
        bytes := bytes
        leftover := cut.leftover }

def cutWords (build : Build) (maxBoatBytes : Nat) (b : Boats ι ω) : Option (Cut ι) :=
  b.components.foldlM (Cut.boardWords build maxBoatBytes b) {}

/-- The bytes that the objects of a component have dirty. -/
def compBytes (b : Boats ι ω) (component : List Nat) : Nat :=
  ((b.objectsOf component).map b.size).sum

/-- The bytes of one component after the other, on top of those that board: a sum is a word, or it
wraps to one that is above the cap all the same. -/
def Sums (build : Build) (limit : Nat) : Nat → List Nat → Prop
  | _, [] => True
  | bytes, comp :: comps =>
    if bytes + comp < Words.size then
      Sums build limit (if limit < bytes + comp then bytes else bytes + comp) comps
    else build = .release ∧ limit < (bytes + comp) % Words.size ∧ Sums build limit bytes comps

/-- The first component boards in any case; a debug build has to count it. -/
def AllSums (build : Build) (limit : Nat) : List Nat → Prop
  | [] => True
  | comp :: comps => (build = .debug → comp < Words.size) ∧ Sums build limit comp comps

instance decidableSums (build : Build) (limit : Nat) :
    ∀ bytes comps, Decidable (Sums build limit bytes comps)
  | _, [] => inferInstanceAs (Decidable True)
  | bytes, comp :: comps =>
    have := decidableSums build limit (if limit < bytes + comp then bytes else bytes + comp) comps
    have := decidableSums build limit bytes comps
    inferInstanceAs (Decidable (if bytes + comp < Words.size then
      Sums build limit (if limit < bytes + comp then bytes else bytes + comp) comps
    else build = .release ∧ limit < (bytes + comp) % Words.size ∧ Sums build limit bytes comps))

instance decidableAllSums (build : Build) (limit : Nat) :
    ∀ comps, Decidable (AllSums build limit comps)
  | [] => inferInstanceAs (Decidable True)
  | _ :: _ => inferInstanceAs (Decidable (_ ∧ _))

variable {build : Build} {limit w : Nat} {b : Boats ι ω} {cut : Cut ι}

/-- The word for the bytes that board is as good as their number. -/
theorem boardWords_eq (hw : fit build cut.bytes = some w) (component : List Nat) :
    Cut.boardWords build limit b { cut with bytes := w } component =
      (fit build (cut.bytes + b.compBytes component)).map fun bytes =>
        if cut.selected ≠ [] ∧ limit < bytes then
          { cut with bytes := w, leftover := cut.leftover ++ component }
        else
          { selected := cut.selected ++ component
            objects := cut.objects ∪ b.objectsOf component
            bytes := bytes
            leftover := cut.leftover } := by
  rw [Cut.boardWords, Words.sum_eq, ← compBytes, ← Words.fit_bind_add hw, Option.map_bind]
  rfl

/-- While the sums hold, the cut is as it is without overflow. -/
theorem foldlM_of_sums (hlimit : limit < Words.size) {components : List (List Nat)}
    (hne : cut.selected ≠ []) (hw : fit build cut.bytes = some w)
    (h : Sums build limit cut.bytes (components.map b.compBytes)) :
    ∃ w', components.foldlM (Cut.boardWords build limit b) { cut with bytes := w } =
      some { components.foldl (Cut.board limit b) cut with bytes := w' } := by
  induction components generalizing cut w with
  | nil => exact ⟨w, rfl⟩
  | cons component components ih =>
    rw [List.foldlM_cons, boardWords_eq hw, List.foldl_cons, board_eq, ← compBytes]
    rw [List.map_cons, Sums] at h
    by_cases hlt : cut.bytes + b.compBytes component < Words.size
    · rw [if_pos hlt] at h
      rw [Words.fit_of_lt hlt]
      by_cases hfull : limit < cut.bytes + b.compBytes component
      · rw [if_pos hfull] at h
        simp only [Option.map_some, hne, hfull, ne_eq, not_false_eq_true, and_self, if_true]
        exact @ih w { cut with leftover := cut.leftover ++ component } hne hw h
      · rw [if_neg hfull] at h
        simp only [Option.map_some, hfull, and_false, if_false]
        refine @ih _ { cut with
          selected := cut.selected ++ component
          objects := cut.objects ∪ b.objectsOf component
          bytes := cut.bytes + b.compBytes component } ?_ (Words.fit_of_lt hlt) h
        simp [hne]
    · -- the sum wraps, and the component is left behind as it would be
      rw [if_neg hlt] at h
      obtain ⟨rfl, hover, h⟩ := h
      have hfull : limit < cut.bytes + b.compBytes component := by omega
      rw [Words.fit_release]
      simp only [Option.map_some, hne, hover, hfull, ne_eq, not_false_eq_true, and_self, if_true]
      exact @ih w { cut with leftover := cut.leftover ++ component } hne hw h

/-- Two transactions that have nothing to do with each other are in the boat, and its bytes are no
word. -/
structure Overrun (b : Boats ι ω) (cut : Cut ι) : Prop where
  apart : ∃ i ∈ cut.selected, ∃ j ∈ cut.selected,
    ¬ Linked (b.pending.map AppliedTxn.participants) i j
  nodup : cut.objects.Nodup
  bytes : Words.size ≤ (cut.objects.map b.size).sum

theorem sum_size_le {s t : List ι} (hs : s.Nodup) (hsub : s ⊆ t) :
    (s.map b.size).sum ≤ (t.map b.size).sum := by
  obtain ⟨l, hperm, hl⟩ := List.subperm_of_subset hs hsub
  rw [← (hperm.map b.size).sum_eq]
  exact (hl.map b.size).sum_le_sum fun _ _ => Nat.zero_le _

/-- Whatever boards or stays after that. -/
theorem Overrun.board {cut' : Cut ι} (h : Overrun b cut) {component : List Nat}
    (hcut : Cut.boardWords build limit b cut component = some cut') : Overrun b cut' := by
  obtain ⟨i, hi, j, hj, hapart⟩ := h.apart
  obtain ⟨_, -, hcut⟩ := Option.bind_eq_some_iff.mp hcut
  obtain ⟨bytes, -, rfl⟩ := Option.map_eq_some_iff.mp hcut
  split_ifs
  · exact ⟨⟨i, hi, j, hj, hapart⟩, h.nodup, h.bytes⟩
  · refine ⟨⟨i, ?_, j, ?_, hapart⟩, (List.nodup_dedup _).union _, h.bytes.trans ?_⟩
    · exact List.mem_append_left _ hi
    · exact List.mem_append_left _ hj
    · exact sum_size_le h.nodup fun o ho => List.mem_union_iff.mpr (.inl ho)

theorem Overrun.foldlM {cut' : Cut ι} (h : Overrun b cut) {components : List (List Nat)}
    (hcut : components.foldlM (Cut.boardWords build limit b) cut = some cut') :
    Overrun b cut' := by
  induction components generalizing cut with
  | nil =>
    cases hcut
    exact h
  | cons component components ih =>
    rw [List.foldlM_cons] at hcut
    obtain ⟨next, hnext, hcut⟩ := Option.bind_eq_some_iff.mp hcut
    exact ih (h.board hnext) hcut

/-- The one boat that takes whole components only and has too many bytes takes just one. -/
theorem Overrun.not_fills (h : Overrun b cut) (hlimit : limit < Words.size) :
    ¬ b.Fills limit cut := by
  intro hfills
  obtain ⟨i, hi, j, hj, hapart⟩ := h.apart
  obtain ⟨picked, hselected, hcomponents, -, hsingle⟩ := hfills.components
  obtain ⟨component, rfl⟩ := List.length_eq_one_iff.mp (hsingle (hlimit.trans_le h.bytes))
  rw [List.flatten_singleton] at hselected
  rw [hselected] at hi hj
  have hlinked := (hcomponents component List.mem_cons_self).2 i hi j
  exact hapart (hlinked.mp hj).2

/-- The transactions of two components have nothing to do with each other. -/
theorem not_linked {done rest : List (List Nat)} {component other : List Nat}
    (hall : b.components = done ++ component :: rest) (hother : other ∈ done) {i j : Nat}
    (hi : i ∈ other) (hj : j ∈ component) :
    ¬ Linked (b.pending.map AppliedTxn.participants) i j := by
  intro hlinked
  have hnodup : b.components.flatten.Nodup :=
    (flatten_components _).nodup_iff.mpr List.nodup_range
  have hmem : component ∈ b.components := by simp [hall]
  have hmem' : other ∈ b.components := by simp [hall, hother]
  have hlt := (((mem_component hmem).2.2 j hj j).mp hj).1
  have hboth : j ∈ other := ((mem_component hmem').2.2 i hi j).mpr ⟨hlt, hlinked⟩
  have hpairwise := (List.nodup_flatten.mp hnodup).2
  rw [hall] at hpairwise
  exact (List.pairwise_append.mp hpairwise).2.2 other hother component List.mem_cons_self hboth hj

/-- The next component in the list. -/
theorem Loaded.next {done rest picked left : List (List Nat)} {component : List Nat}
    (h : Loaded limit b done cut picked left) (hall : b.components = done ++ component :: rest) :
    ∃ picked left, Loaded limit b (done ++ [component]) (cut.board limit b component) picked
      left := by
  have hapart := b.components_apart
  rw [hall] at hapart
  refine h.board (fun c hc => ?_) fun c hc =>
    (List.pairwise_append.mp hapart).2.2 c hc component List.mem_cons_self
  have hmem : c ∈ b.components := by
    rw [hall]
    exact List.mem_append_left _ hc
  exact (mem_component hmem).1

/-- A component that boards although the bytes are no word any more. -/
theorem Loaded.overrun {done rest picked left : List (List Nat)} {component : List Nat}
    (hall : b.components = done ++ component :: rest) (hdone : Loaded limit b done cut picked left)
    (hne : cut.selected ≠ []) (hover : Words.size ≤ cut.bytes + b.compBytes component)
    {bytes : Nat} :
    Overrun b { selected := cut.selected ++ component
                objects := cut.objects ∪ b.objectsOf component
                bytes := bytes
                leftover := cut.leftover } := by
  have hapart := b.components_apart
  rw [hall] at hapart
  have hlast := fun c hc =>
    (List.pairwise_append.mp hapart).2.2 c hc component List.mem_cons_self
  obtain ⟨i, hi⟩ := List.exists_mem_of_ne_nil _ hne
  have hmem : component ∈ b.components := by simp [hall]
  obtain ⟨j, hj⟩ := List.exists_mem_of_ne_nil _ (mem_component hmem).1
  have hi' := hi
  rw [hdone.selected] at hi'
  obtain ⟨other, hother, hi'⟩ := List.mem_flatten.mp hi'
  refine ⟨⟨i, List.mem_append_left _ hi, j, List.mem_append_right _ hj,
    not_linked hall (hdone.picks.subset hother) hi' hj⟩, (List.nodup_dedup _).union _, ?_⟩
  have hsum := sum_size_union b hdone.nodup (List.nodup_dedup _) (hdone.disjoint hlast)
  rw [← hdone.bytes] at hsum
  exact hover.trans (le_of_eq hsum.symm)

/-- Where a sum does not hold, a component boards that has no room. -/
theorem overrun_of_not_sums {components done picked left : List (List Nat)}
    (hlimit : limit < Words.size) (hall : b.components = done ++ components)
    (hdone : Loaded limit b done cut picked left) (hne : cut.selected ≠ [])
    (hw : fit build cut.bytes = some w) {cut' : Cut ι}
    (hcut : components.foldlM (Cut.boardWords build limit b) { cut with bytes := w } = some cut')
    (h : ¬ Sums build limit cut.bytes (components.map b.compBytes)) : Overrun b cut' := by
  induction components generalizing cut w done picked left with
  | nil => exact absurd trivial h
  | cons component components ih =>
    have hall' : b.components = (done ++ [component]) ++ components := by simp [hall]
    obtain ⟨picked', left', hnext⟩ := hdone.next hall
    rw [List.foldlM_cons, boardWords_eq hw] at hcut
    rw [List.map_cons, Sums] at h
    rw [board_eq, ← compBytes] at hnext
    by_cases hlt : cut.bytes + b.compBytes component < Words.size
    · rw [if_pos hlt] at h
      rw [Words.fit_of_lt hlt] at hcut
      by_cases hfull : limit < cut.bytes + b.compBytes component
      · rw [if_pos hfull] at h
        simp only [Option.map_some, hne, hfull, ne_eq, not_false_eq_true, and_self, if_true]
          at hcut hnext
        exact ih hall' hnext hne hw hcut h
      · rw [if_neg hfull] at h
        simp only [Option.map_some, hfull, and_false, if_false] at hcut hnext
        refine ih hall' hnext ?_ (Words.fit_of_lt hlt) hcut h
        simp [hne]
    · rw [if_neg hlt] at h
      cases build with
      | debug =>
        rw [Words.fit_eq_none_iff.mpr ⟨rfl, Nat.le_of_not_lt hlt⟩] at hcut
        cases hcut
      | release =>
        have hfull : limit < cut.bytes + b.compBytes component := by omega
        rw [Words.fit_release] at hcut
        by_cases hover : limit < (cut.bytes + b.compBytes component) % Words.size
        · simp only [hover, true_and] at h
          simp only [Option.map_some, hne, hover, hfull, ne_eq, not_false_eq_true, and_self,
            if_true] at hcut hnext
          exact ih hall' hnext hne hw hcut h
        · simp only [Option.map_some, hover, and_false, if_false] at hcut
          exact (hdone.overrun hall hne (Nat.le_of_not_lt hlt)).foldlM hcut

/-- What a cut takes does not depend on the bytes that are noted. -/
theorem Fills.withBytes (h : b.Fills limit cut) (bytes : Nat) :
    b.Fills limit { cut with bytes } :=
  ⟨h.components, h.objects, h.nodup, h.whole, h.all, h.ordered, h.dirty, h.waiters⟩

/-- The first component boards, if its bytes can be counted. -/
theorem boardWords_first (component : List Nat) :
    Cut.boardWords build limit b {} component = (fit build (b.compBytes component)).map
      fun bytes => { Cut.board limit b {} component with bytes } := by
  have hzero : fit build ({} : Cut ι).bytes = some 0 := Words.fit_of_lt (Nat.two_pow_pos _)
  refine (boardWords_eq hzero component).trans ?_
  rw [board_eq, Nat.zero_add]
  rfl

theorem first_bytes (limit : Nat) (b : Boats ι ω) (component : List Nat) :
    (Cut.board limit b {} component).bytes = b.compBytes component := by
  simp [board_eq, compBytes]

theorem first_selected (limit : Nat) {component : List Nat} (h : component ∈ b.components) :
    (Cut.board limit b {} component).selected ≠ [] := by
  simpa [board_eq] using (mem_component h).1

/-- Where the sums hold, the boat is cut as it is without overflow. -/
theorem cutWords_of_sums (hlimit : limit < Words.size)
    (h : AllSums build limit (b.components.map b.compBytes)) :
    ∃ w, b.cutWords build limit = some { b.cut limit with bytes := w } := by
  change ∃ w, b.components.foldlM (Cut.boardWords build limit b) {} =
    some { b.components.foldl (Cut.board limit b) {} with bytes := w }
  cases hall : b.components with
  | nil => exact ⟨0, rfl⟩
  | cons component components =>
    have hmem : component ∈ b.components := by simp [hall]
    rw [hall, List.map_cons] at h
    obtain ⟨hword, hsums⟩ := h
    rw [List.foldlM_cons, boardWords_first, List.foldl_cons]
    cases hfit : fit build (b.compBytes component) with
    | none =>
      obtain ⟨hdebug, hge⟩ := Words.fit_eq_none_iff.mp hfit
      exact absurd (hword hdebug) (Nat.not_lt.mpr hge)
    | some w =>
      rw [← first_bytes limit b] at hfit hsums
      exact foldlM_of_sums hlimit (first_selected limit hmem) hfit hsums

/-- Where they do not, there is no cut, or one that takes too much. -/
theorem sums_of_fills (hlimit : limit < Words.size) (hcut : b.cutWords build limit = some cut)
    (hfills : b.Fills limit cut) : AllSums build limit (b.components.map b.compBytes) := by
  unfold cutWords at hcut
  cases hall : b.components with
  | nil => trivial
  | cons component components =>
    have hmem : component ∈ b.components := by simp [hall]
    obtain ⟨picked, left, hfirst⟩ := (loaded_nil limit b).next hall
    rw [hall, List.foldlM_cons, boardWords_first] at hcut
    obtain ⟨first, hcomponent, hcut⟩ := Option.bind_eq_some_iff.mp hcut
    obtain ⟨w, hfit, rfl⟩ := Option.map_eq_some_iff.mp hcomponent
    refine ⟨?_, ?_⟩
    · rintro rfl
      by_contra hge
      rw [Words.fit_eq_none_iff.mpr ⟨rfl, Nat.le_of_not_lt hge⟩] at hfit
      cases hfit
    · rw [← first_bytes limit b] at hfit ⊢
      by_contra hsums
      have hover := overrun_of_not_sums hlimit hall hfirst (first_selected limit hmem) hfit hcut
        hsums
      exact hover.not_fills hlimit hfills

/-- The cut is as it should be exactly when its sums of bytes hold. -/
theorem cutWords_fills_iff (build : Build) {limit : Nat} (hlimit : limit < Words.size)
    (b : Boats ι ω) :
    (∃ cut, b.cutWords build limit = some cut ∧ b.Fills limit cut) ↔
      AllSums build limit (b.components.map b.compBytes) := by
  constructor
  · rintro ⟨cut, hcut, hfills⟩
    exact sums_of_fills hlimit hcut hfills
  · intro h
    obtain ⟨w, hcut⟩ := cutWords_of_sums hlimit h
    exact ⟨_, hcut, (cut_fills limit b).withBytes w⟩

/-- Two transactions, each with an object of so many bytes dirty. -/
def apart (bytes : Nat) : Boats Nat Nat where
  dirty := (AList.insert 1 bytes ∅).insert 0 bytes
  dirtyBytes := bytes + bytes
  pending := [⟨[0], none⟩, ⟨[1], none⟩]

/-- Two objects of three bytes under a cap of four. -/
theorem cutWords_fills_small : ∃ cut, (apart 3).cutWords .debug 4 = some cut ∧
    (apart 3).Fills 4 cut :=
  (cutWords_fills_iff .debug (by decide) (apart 3)).mpr (by decide)

/-- Two objects of 2^63 bytes each sail in one boat under a cap of as many, where the sum wraps; it
panics where that is checked. -/
theorem not_fills_of_overflow :
    (∃ cut, (apart (2 ^ 63)).cutWords .release (2 ^ 63) = some cut ∧ cut.objects = [0, 1] ∧
      ¬ (apart (2 ^ 63)).Fills (2 ^ 63) cut) ∧
    (apart (2 ^ 63)).cutWords .debug (2 ^ 63) = none := by
  refine ⟨⟨{ selected := [0, 1], objects := [0, 1] }, rfl, rfl, ?_⟩, rfl⟩
  have hall : (apart (2 ^ 63)).components = [[0]] ++ [1] :: [] := rfl
  refine Overrun.not_fills ⟨⟨0, by decide, 1, by decide, ?_⟩, by decide, by decide⟩ (by decide)
  exact not_linked hall List.mem_cons_self List.mem_cons_self List.mem_cons_self

end Fafo.Boats
