import Mathlib.Algebra.BigOperators.Group.List.Basic
import Mathlib.Data.List.Dedup
import Mathlib.Data.List.Induction
import Fafo.Components

/-! How a boat is cut: whole components, the oldest one first, under the cap. -/
namespace Fafo.Boats

variable {ι ω : Type}

def participantsAt (b : Boats ι ω) (i : Nat) : List ι :=
  (b.pending[i]?.map AppliedTxn.participants).getD []

/-- The pending transactions with the given indices. -/
def txnsAt (b : Boats ι ω) (indices : List Nat) : List (AppliedTxn ι ω) :=
  indices.filterMap fun i => b.pending[i]?

theorem filterMap_range (txns : List (AppliedTxn ι ω)) :
    (List.range txns.length).filterMap (fun i => txns[i]?) = txns := by
  induction txns with
  | nil => rfl
  | cons txn txns ih =>
    rw [List.length_cons, List.range_succ_eq_map, List.filterMap_cons_some List.getElem?_cons_zero,
      List.filterMap_map]
    exact congrArg (txn :: ·) ih

/-- Indices in ascending order pick transactions in their order. -/
theorem txnsAt_sublist {b : Boats ι ω} {indices : List Nat}
    (h : indices.Sublist (List.range b.pending.length)) :
    (b.txnsAt indices).Sublist b.pending := by
  have := h.filterMap fun i => b.pending[i]?
  rwa [filterMap_range] at this

/-- Indices that come to all of them, in any order, pick every transaction once. -/
theorem txnsAt_perm {b : Boats ι ω} {indices : List Nat}
    (h : indices.Perm (List.range b.pending.length)) : (b.txnsAt indices).Perm b.pending := by
  have := h.filterMap fun i => b.pending[i]?
  rwa [filterMap_range] at this

theorem mem_participantsAt {b : Boats ι ω} {i : Nat} {object : ι} :
    object ∈ b.participantsAt i ↔ ∃ txn, b.pending[i]? = some txn ∧ object ∈ txn.participants := by
  unfold participantsAt
  cases b.pending[i]? with
  | none => simp
  | some txn => simp

variable [DecidableEq ι]

/-- The bytes an object has dirty. -/
def size (b : Boats ι ω) (object : ι) : Nat := (b.dirty.lookup object).getD 0

/-- The components of what is pending. -/
def components (b : Boats ι ω) : List (List Nat) :=
  txnComponents (b.pending.map AppliedTxn.participants)

omit [DecidableEq ι] in
theorem mem_having {b : Boats ι ω} {i : Nat} {object : ι} :
    (i, object) ∈ having (b.pending.map AppliedTxn.participants) ↔
      object ∈ b.participantsAt i := by
  rw [mem_participantsAt, having]
  constructor
  · rintro ⟨participants, hi, ho⟩
    rw [List.getElem?_map, Option.map_eq_some_iff] at hi
    obtain ⟨txn, hi, rfl⟩ := hi
    exact ⟨txn, hi, ho⟩
  · rintro ⟨txn, hi, ho⟩
    exact ⟨txn.participants, by rw [List.getElem?_map, hi, Option.map_some], ho⟩

/-- Two components have no object in common. -/
theorem components_apart (b : Boats ι ω) : b.components.Pairwise fun c d =>
    ∀ i ∈ c, ∀ j ∈ d, ∀ o ∈ b.participantsAt i, o ∉ b.participantsAt j := by
  have hnodup : b.components.flatten.Nodup :=
    (flatten_components _).nodup_iff.mpr List.nodup_range
  refine (List.nodup_flatten.mp hnodup).2.imp_of_mem
    fun {c d} hc hd hdisjoint i hi j hj o ho ho' => ?_
  have hlt := (((mem_component hd).2.2 j hj j).mp hj).1
  have hlinked : Linked (b.pending.map AppliedTxn.participants) i j :=
    .rel _ _ ⟨o, mem_having.mpr ho, mem_having.mpr ho'⟩
  exact hdisjoint (((mem_component hc).2.2 i hi j).mpr ⟨hlt, hlinked⟩) hj

/-- The objects of a component. -/
def objectsOf (b : Boats ι ω) (component : List Nat) : List ι :=
  (component.flatMap b.participantsAt).dedup

theorem mem_objectsOf {b : Boats ι ω} {component : List Nat} {object : ι} :
    object ∈ b.objectsOf component ↔ ∃ i ∈ component, object ∈ b.participantsAt i := by
  rw [objectsOf, List.mem_dedup, List.mem_flatMap]

/-- The bytes that components have dirty. -/
def load (b : Boats ι ω) (components : List (List Nat)) : Nat :=
  (components.map fun c => ((b.objectsOf c).map b.size).sum).sum

theorem load_append (b : Boats ι ω) (done : List (List Nat)) (component : List Nat) :
    b.load (done ++ [component]) = b.load done + ((b.objectsOf component).map b.size).sum := by
  simp [load]

/-- Where a cut stands once it has gone through some components: those picked, those left. -/
structure Loaded (limit : Nat) (b : Boats ι ω) (done : List (List Nat)) (cut : Cut ι)
    (picked left : List (List Nat)) : Prop where
  picks : picked.Sublist done
  parts : (picked.flatten ++ left.flatten).Perm done.flatten
  selected : cut.selected = picked.flatten
  leftover : cut.leftover = left.flatten
  oldest : ∀ c, done.head? = some c → c ∈ picked
  capped : limit < cut.bytes → picked.length = 1
  objects : ∀ o, o ∈ cut.objects ↔ ∃ i ∈ cut.selected, o ∈ b.participantsAt i
  nodup : cut.objects.Nodup
  bytes : cut.bytes = (cut.objects.map b.size).sum
  spent : cut.bytes ≤ b.load done
  behind : left ≠ [] → limit < b.load done ∧ 1 < done.length

theorem board_eq (limit : Nat) (b : Boats ι ω) (cut : Cut ι) (component : List Nat) :
    cut.board limit b component =
      if cut.selected ≠ [] ∧ limit < cut.bytes + ((b.objectsOf component).map b.size).sum then
        { cut with leftover := cut.leftover ++ component }
      else
        { selected := cut.selected ++ component
          objects := cut.objects ∪ b.objectsOf component
          bytes := cut.bytes + ((b.objectsOf component).map b.size).sum
          leftover := cut.leftover } := rfl

/-- The sizes of two sets of objects that have none in common add up. -/
theorem sum_size_union (b : Boats ι ω) {s t : List ι} (hs : s.Nodup) (ht : t.Nodup)
    (h : ∀ o ∈ s, o ∉ t) : ((s ∪ t).map b.size).sum = (s.map b.size).sum + (t.map b.size).sum := by
  have hperm : (s ∪ t).Perm (s ++ t) := by
    refine (List.perm_ext_iff_of_nodup (ht.union s) ?_).mpr fun o => ?_
    · exact List.nodup_append.mpr ⟨hs, ht, fun a ha c hc hac => h a ha (hac ▸ hc)⟩
    · rw [List.mem_union_iff, List.mem_append]
  rw [(hperm.map b.size).sum_eq, List.map_append, List.sum_append]

/-- A component of its own has no object in common with those picked. -/
theorem Loaded.disjoint {limit : Nat} {b : Boats ι ω} {done picked left : List (List Nat)}
    {cut : Cut ι} {component : List Nat} (h : Loaded limit b done cut picked left)
    (hapart : ∀ c ∈ done, ∀ i ∈ c, ∀ j ∈ component, ∀ o ∈ b.participantsAt i,
      o ∉ b.participantsAt j) : ∀ o ∈ cut.objects, o ∉ b.objectsOf component := by
  intro o ho ho'
  obtain ⟨i, hi, hoi⟩ := (h.objects o).mp ho
  obtain ⟨j, hj, hoj⟩ := mem_objectsOf.mp ho'
  rw [h.selected] at hi
  obtain ⟨c, hc, hic⟩ := List.mem_flatten.mp hi
  exact hapart c (h.picks.subset hc) i hic j hj o hoi hoj

/-- One component more. -/
theorem Loaded.board {limit : Nat} {b : Boats ι ω} {done picked left : List (List Nat)}
    {cut : Cut ι} {component : List Nat} (h : Loaded limit b done cut picked left)
    (hnil : ∀ c ∈ done, c ≠ [])
    (hapart : ∀ c ∈ done, ∀ i ∈ c, ∀ j ∈ component, ∀ o ∈ b.participantsAt i,
      o ∉ b.participantsAt j) :
    ∃ picked left, Loaded limit b (done ++ [component]) (cut.board limit b component) picked
      left := by
  have hempty : cut.selected = [] → done = [] ∧ picked = [] := by
    intro hselected
    have hpicked : picked = [] := by
      refine List.eq_nil_iff_forall_not_mem.mpr fun c hc => ?_
      have := List.flatten_eq_nil_iff.mp (h.selected.symm.trans hselected) c hc
      exact hnil c (h.picks.subset hc) this
    refine ⟨?_, hpicked⟩
    cases done with
    | nil => rfl
    | cons c done =>
      have := h.oldest c rfl
      rw [hpicked] at this
      cases this
  rw [board_eq]
  split_ifs with hfull
  · refine ⟨picked, left ++ [component], h.picks.trans (List.sublist_append_left ..), ?_,
      h.selected, ?_, fun c hc => ?_, h.capped, h.objects, h.nodup, h.bytes, ?_, fun _ => ?_⟩
    · rw [List.flatten_append, List.flatten_append, ← List.append_assoc]
      exact h.parts.append_right _
    · rw [List.flatten_append, h.leftover, List.flatten_singleton]
    · cases done with
      | nil =>
        have := List.sublist_nil.mp h.picks
        exact absurd (by rw [h.selected, this, List.flatten_nil]) hfull.1
      | cons c' done => exact h.oldest c hc
    · rw [load_append]
      exact h.spent.trans (Nat.le_add_right _ _)
    · have hdone : done ≠ [] := by
        rintro rfl
        exact hfull.1 (by rw [h.selected, List.sublist_nil.mp h.picks, List.flatten_nil])
      have hspent := h.spent
      have hover := hfull.2
      have hlength := List.length_pos_iff.mpr hdone
      rw [load_append, List.length_append, List.length_singleton]
      omega
  · refine ⟨picked ++ [component], left, h.picks.append (List.Sublist.refl _), ?_, ?_, h.leftover,
      fun c hc => ?_, fun hover => ?_, fun o => ?_, ?_, ?_, ?_, fun hleft => ?_⟩
    · rw [List.flatten_append, List.flatten_append, List.append_assoc]
      refine (List.Perm.append_left _ List.perm_append_comm).trans ?_
      rw [← List.append_assoc]
      exact h.parts.append_right _
    · rw [List.flatten_append, h.selected, List.flatten_singleton]
    · cases done with
      | nil =>
        cases hc
        exact List.mem_append_right _ List.mem_cons_self
      | cons c' done => exact List.mem_append_left _ (h.oldest c hc)
    · have hselected : cut.selected = [] := by
        by_contra hne
        exact hfull ⟨hne, hover⟩
      rw [(hempty hselected).2]
      rfl
    · rw [List.mem_union_iff, h.objects, mem_objectsOf]
      simp only [List.mem_append, or_and_right, exists_or]
    · exact (List.nodup_dedup _).union _
    · simp only [h.bytes]
      exact (sum_size_union b h.nodup (List.nodup_dedup _) (h.disjoint hapart)).symm
    · rw [load_append]
      exact Nat.add_le_add_right h.spent _
    · obtain ⟨hover, hlength⟩ := h.behind hleft
      rw [load_append, List.length_append]
      omega

theorem loaded_nil (limit : Nat) (b : Boats ι ω) : Loaded limit b [] {} [] [] :=
  ⟨List.Sublist.refl _, List.Perm.refl _, rfl, rfl, nofun, fun h => absurd h (Nat.not_lt_zero _),
    by simp, List.nodup_nil, rfl, Nat.zero_le _, fun h => absurd rfl h⟩

theorem loaded_foldl {limit : Nat} {b : Boats ι ω} (done : List (List Nat))
    (hnil : ∀ c ∈ done, c ≠ [])
    (hapart : done.Pairwise fun c d => ∀ i ∈ c, ∀ j ∈ d, ∀ o ∈ b.participantsAt i,
      o ∉ b.participantsAt j) :
    ∃ picked left, Loaded limit b done (done.foldl (Cut.board limit b) {}) picked left := by
  induction done using List.reverseRecOn with
  | nil => exact ⟨[], [], loaded_nil limit b⟩
  | append_singleton done component ih =>
    obtain ⟨hdone, _, hlast⟩ := List.pairwise_append.mp hapart
    have hnil' : ∀ c ∈ done, c ≠ [] := fun c hc => hnil c (List.mem_append_left _ hc)
    obtain ⟨picked, left, h⟩ := ih hnil' hdone
    rw [List.foldl_append, List.foldl_cons, List.foldl_nil]
    exact h.board hnil' fun c hc => hlast c hc component List.mem_cons_self

theorem loaded_cut (limit : Nat) (b : Boats ι ω) :
    ∃ picked left, Loaded limit b b.components (b.cut limit) picked left :=
  loaded_foldl _ (fun _ hc => (mem_component hc).1) b.components_apart

/-- The selected and the leftover transactions come to all of them. -/
theorem cut_perm (limit : Nat) (b : Boats ι ω) :
    ((b.cut limit).selected ++ (b.cut limit).leftover).Perm (List.range b.pending.length) := by
  obtain ⟨picked, left, h⟩ := loaded_cut limit b
  rw [h.selected, h.leftover]
  refine h.parts.trans ?_
  have := flatten_components (b.pending.map AppliedTxn.participants)
  rwa [List.length_map] at this

/-- No pending transaction is torn: its participants are all in the boat, or none is. -/
theorem cut_whole (limit : Nat) (b : Boats ι ω) {i : Nat} (hi : i < b.pending.length) :
    (i ∈ (b.cut limit).selected ∧ b.participantsAt i ⊆ (b.cut limit).objects) ∨
      (i ∈ (b.cut limit).leftover ∧ ∀ o ∈ b.participantsAt i, o ∉ (b.cut limit).objects) := by
  obtain ⟨picked, left, h⟩ := loaded_cut limit b
  have hperm := cut_perm limit b
  have hnodup := (hperm.nodup_iff.mpr List.nodup_range)
  rcases mem_cut limit hi with hsel | hleft
  · exact .inl ⟨hsel, fun o ho => (h.objects o).mpr ⟨i, hsel, ho⟩⟩
  · refine .inr ⟨hleft, fun o ho ho' => ?_⟩
    obtain ⟨j, hj, hoj⟩ := (h.objects o).mp ho'
    have hj' := hj
    rw [h.selected] at hj'
    obtain ⟨c, hc, hjc⟩ := List.mem_flatten.mp hj'
    have hlinked : Linked (b.pending.map AppliedTxn.participants) j i :=
      .rel _ _ ⟨o, mem_having.mpr hoj, mem_having.mpr ho⟩
    have hic : i ∈ c := ((mem_component (h.picks.subset hc)).2.2 j hjc i).mpr
      ⟨by rwa [List.length_map], hlinked⟩
    have hsel : i ∈ (b.cut limit).selected := by
      rw [h.selected]
      exact List.mem_flatten.mpr ⟨c, hc, hic⟩
    exact (List.nodup_append.mp hnodup).2.2 i hsel i hleft rfl

/-- What is cleaned goes, and the sizes of the rest stay. -/
theorem lookup_cleanAll (objects : List ι) (b : Boats ι ω) (o : ι) :
    (b.cleanAll objects).dirty.lookup o = if o ∈ objects then none else b.dirty.lookup o := by
  induction objects generalizing b with
  | nil => rfl
  | cons object objects ih =>
    rw [cleanAll, List.foldl_cons]
    refine (ih _).trans ?_
    rw [clean_dirty]
    by_cases ho : o = object
    · subst ho
      simp
    · simp [ho]

theorem leftover_sublist (limit : Nat) (b : Boats ι ω) :
    ((b.cut limit).leftover.insertionSort (· ≤ ·)).Sublist (List.range b.pending.length) := by
  have hsub : ((b.cut limit).leftover.insertionSort (· ≤ ·)).Subperm
      (List.range b.pending.length) := by
    refine List.Subperm.trans (List.perm_insertionSort _ _).subperm ?_
    exact (List.sublist_append_right _ _).subperm.trans (cut_perm limit b).subperm
  exact List.sublist_of_subperm_of_pairwise (r := (· ≤ ·)) hsub
    (List.pairwise_insertionSort _ _) List.pairwise_le_range

/-- What is left on shore is what was not selected, with all its objects as dirty as they were. -/
theorem mem_ashore {limit : Nat} {b : Boats ι ω} {txn : AppliedTxn ι ω} :
    txn ∈ (b.ashore (b.cut limit)).pending ↔
      ∃ i ∈ (b.cut limit).leftover, b.pending[i]? = some txn := by
  rw [ashore_pending, List.mem_filterMap]
  simp only [List.mem_insertionSort]

theorem ashore_apart {limit : Nat} {b : Boats ι ω} {txn : AppliedTxn ι ω}
    (h : txn ∈ (b.ashore (b.cut limit)).pending) {o : ι} (ho : o ∈ txn.participants) :
    o ∉ (b.cut limit).objects := by
  obtain ⟨i, hi, htxn⟩ := mem_ashore.mp h
  have hlt := (List.getElem?_eq_some_iff.mp htxn).1
  have hnodup := ((cut_perm limit b).nodup_iff.mpr List.nodup_range)
  rcases cut_whole limit b hlt with ⟨hsel, _⟩ | ⟨_, hout⟩
  · exact absurd rfl ((List.nodup_append.mp hnodup).2.2 i hsel i hi)
  · exact hout o (mem_participantsAt.mpr ⟨txn, htxn, ho⟩)

/-- A component: what hangs together with any of its members, and nothing else. -/
def Component (b : Boats ι ω) (component : List Nat) : Prop :=
  component ≠ [] ∧ ∀ i ∈ component, ∀ j, j ∈ component ↔
    j < b.pending.length ∧ Linked (b.pending.map AppliedTxn.participants) i j

/-- A boat takes whole components, the oldest transaction's among them, and exceeds the cap only if
it takes just one. What stays keeps its order and stays dirty, and every waiter of what goes travels
once. -/
structure Fills (limit : Nat) (b : Boats ι ω) (cut : Cut ι) : Prop where
  components : ∃ picked : List (List Nat), cut.selected = picked.flatten ∧
    (∀ c ∈ picked, b.Component c) ∧ (b.pending ≠ [] → ∃ c ∈ picked, 0 ∈ c) ∧
    (limit < (cut.objects.map b.size).sum → picked.length = 1)
  objects : ∀ o, o ∈ cut.objects ↔ ∃ i ∈ cut.selected, o ∈ b.participantsAt i
  nodup : cut.objects.Nodup
  whole : ∀ txn ∈ b.pending,
    txn.participants ⊆ cut.objects ∨ ∀ o ∈ txn.participants, o ∉ cut.objects
  all : (b.txnsAt cut.selected ++ (b.ashore cut).pending).Perm b.pending
  ordered : (b.ashore cut).pending.Sublist b.pending
  dirty : ∀ txn ∈ (b.ashore cut).pending, ∀ o ∈ txn.participants,
    (b.ashore cut).dirty.lookup o = b.dirty.lookup o
  waiters : b.boarding cut = (b.txnsAt cut.selected).filterMap AppliedTxn.waiter

theorem cut_fills (limit : Nat) (b : Boats ι ω) : b.Fills limit (b.cut limit) := by
  obtain ⟨picked, left, h⟩ := loaded_cut limit b
  refine ⟨⟨picked, h.selected, fun c hc => ?_, fun hpending => ?_, fun hover => ?_⟩, h.objects,
    h.nodup, fun txn htxn => ?_, ?_, ?_, fun txn htxn o ho => ?_, ?_⟩
  · obtain ⟨hnil, _, hlinked⟩ := mem_component (h.picks.subset hc)
    rw [List.length_map] at hlinked
    exact ⟨hnil, hlinked⟩
  · have hne : b.pending.map AppliedTxn.participants ≠ [] := by simpa using hpending
    obtain ⟨component, rest, hcomponents, hzero⟩ := first_component hne
    refine ⟨component, h.oldest component ?_, hzero⟩
    rw [Boats.components, hcomponents, List.head?_cons]
  · rw [← h.bytes] at hover
    exact h.capped hover
  · obtain ⟨i, hi⟩ := List.mem_iff_getElem?.mp htxn
    have hparticipants : b.participantsAt i = txn.participants := by
      rw [participantsAt, hi, Option.map_some, Option.getD_some]
    rw [← hparticipants]
    rcases cut_whole limit b (List.getElem?_eq_some_iff.mp hi).1 with ⟨_, hin⟩ | ⟨_, hout⟩
    · exact .inl hin
    · exact .inr hout
  · rw [ashore_pending]
    have hsort : ((b.cut limit).selected ++ (b.cut limit).leftover.insertionSort (· ≤ ·)).Perm
        (List.range b.pending.length) :=
      (List.Perm.append_left _ (List.perm_insertionSort _ _)).trans (cut_perm limit b)
    have := txnsAt_perm hsort
    rwa [txnsAt, List.filterMap_append] at this
  · rw [ashore_pending]
    exact txnsAt_sublist (leftover_sublist limit b)
  · rw [ashore, lookup_cleanAll, if_neg (ashore_apart htxn ho)]
  · rw [boarding, txnsAt, List.filterMap_filterMap]

end Fafo.Boats
