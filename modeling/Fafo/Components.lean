import Mathlib.Data.Set.Insert
import Fafo.Library.Forests
import Fafo.Boats

/-! The components of the pending transactions are the classes of those that hang together. -/
namespace Fafo.Boats

open Forests

variable {ι ω : Type}

theorem find_spec {parent : List Nat} {k i r fuel : Nat} (h : Climb parent k i r) (hk : k ≤ fuel) :
    (find fuel parent i).1 = r ∧ SameRoots parent (find fuel parent i).2 := by
  induction h generalizing fuel with
  | @root i h =>
    cases fuel with
    | zero => exact ⟨rfl, .refl parent⟩
    | succ fuel =>
      have hstop : find (fuel + 1) parent i = (i, parent) := if_pos h
      rw [hstop]
      exact ⟨rfl, .refl parent⟩
  | @step k i r hne hclimb ih =>
    cases fuel with
    | zero => omega
    | succ fuel =>
      obtain ⟨hroot, hsame⟩ := @ih fuel (by omega)
      have hgo : find (fuel + 1) parent i = ((find fuel parent (up parent i)).1,
          (find fuel parent (up parent i)).2.set i (find fuel parent (up parent i)).1) :=
        if_neg hne
      rw [hgo, hroot]
      have hir : i ≠ r := fun hir => hne (hir ▸ hclimb.up_root)
      exact ⟨rfl, hsame.trans (.compress (hsame.2 i r ⟨_, .step hne hclimb⟩) hir)⟩

theorem findRoot_spec {parent : List Nat} {i r : Nat} (h : Root parent i r) :
    (findRoot parent i).1 = r ∧ SameRoots parent (findRoot parent i).2 := by
  obtain ⟨k, h⟩ := h
  exact find_spec h h.le_length

/-- The two transactions have both been seen with some object. -/
def Met (seen : Set (Nat × ι)) (i j : Nat) : Prop :=
  ∃ object, (i, object) ∈ seen ∧ (j, object) ∈ seen

/-- A forest over `n` transactions that joins those which hang together by what was seen. -/
structure Grown (n : Nat) (seen : Set (Nat × ι)) (f : Forest ι) : Prop where
  length : f.parent.length = n
  rooted : Rooted f.parent
  bounded : ∀ i r, i < n → Root f.parent i r → r < n
  joined : ∀ i j, Joined f.parent i j ↔ Relation.EqvGen (Met seen) i j
  first : ∀ object j, f.firstTxnWith object = some j → (j, object) ∈ seen
  unmet : ∀ object, f.firstTxnWith object = none → ∀ j, (j, object) ∉ seen
  inside : ∀ j object, (j, object) ∈ seen → j < n

theorem Met.mono {seen seen' : Set (Nat × ι)} (h : seen ⊆ seen') {i j : Nat}
    (hmet : Met seen i j) : Met seen' i j := by
  obtain ⟨object, hi, hj⟩ := hmet
  exact ⟨object, h hi, h hj⟩

/-- Seeing a transaction with an object again joins it to any other seen with it. -/
theorem eqvGen_met_insert {seen : Set (Nat × ι)} {i j : Nat} {object : ι}
    (hj : (j, object) ∈ seen) (x y : Nat) :
    Relation.EqvGen (Met (insert (i, object) seen)) x y ↔
      Relation.EqvGen (fun x y => Met seen x y ∨ (x = i ∧ y = j)) x y := by
  have hij : Relation.EqvGen (fun x y => Met seen x y ∨ (x = i ∧ y = j)) i j :=
    .rel _ _ (.inr ⟨rfl, rfl⟩)
  constructor
  · intro h
    induction h with
    | rel x y h =>
      obtain ⟨o, hx, hy⟩ := h
      rcases hx with hx | hx
      · cases hx
        rcases hy with hy | hy
        · cases hy
          exact .refl _
        · exact hij.trans _ _ _ (.rel _ _ (.inl ⟨object, hj, hy⟩))
      · rcases hy with hy | hy
        · cases hy
          exact Relation.EqvGen.trans _ _ _ (.rel _ _ (.inl ⟨object, hx, hj⟩)) (hij.symm _ _)
        · exact .rel _ _ (.inl ⟨o, hx, hy⟩)
    | refl x => exact .refl x
    | symm x y _ ih => exact ih.symm
    | trans x y z _ _ ih ih' => exact ih.trans _ _ _ ih'
  · intro h
    induction h with
    | rel x y h =>
      rcases h with h | ⟨rfl, rfl⟩
      · exact .rel _ _ (h.mono (Set.subset_insert _ _))
      · exact .rel _ _ ⟨object, Set.mem_insert _ _, Set.mem_insert_of_mem _ hj⟩
    | refl x => exact .refl x
    | symm x y _ ih => exact ih.symm
    | trans x y z _ _ ih ih' => exact ih.trans _ _ _ ih'

/-- The first one seen with an object joins nobody. -/
theorem eqvGen_met_fresh {seen : Set (Nat × ι)} {i : Nat} {object : ι}
    (hfresh : ∀ j, (j, object) ∉ seen) (x y : Nat) :
    Relation.EqvGen (Met (insert (i, object) seen)) x y ↔ Relation.EqvGen (Met seen) x y := by
  constructor
  · intro h
    induction h with
    | rel x y h =>
      obtain ⟨o, hx, hy⟩ := h
      rcases hx with hx | hx <;> rcases hy with hy | hy
      · cases hx
        cases hy
        exact .refl _
      · cases hx
        exact absurd hy (hfresh y)
      · cases hy
        exact absurd hx (hfresh x)
      · exact .rel _ _ ⟨o, hx, hy⟩
    | refl x => exact .refl x
    | symm x y _ ih => exact ih.symm
    | trans x y z _ _ ih ih' => exact ih.trans _ _ _ ih'
  · exact fun h => Relation.EqvGen.mono (fun _ _ h => h.mono (Set.subset_insert _ _)) _ _ h

variable [DecidableEq ι]

theorem Grown.meet {n i : Nat} {seen : Set (Nat × ι)} {f : Forest ι} (h : Grown n seen f)
    (hi : i < n) (object : ι) : Grown n (insert (i, object) seen) (f.meet i object) := by
  have hinside : ∀ j o, (j, o) ∈ insert (i, object) seen → j < n := by
    rintro j o (hj | hj)
    · cases hj
      exact hi
    · exact h.inside j o hj
  cases hfirst : f.firstTxnWith object with
  | none =>
    have hmeet : f.meet i object =
        { f with firstTxnWith := Function.update f.firstTxnWith object (some i) } := by
      rw [Forest.meet, hfirst]
    rw [hmeet]
    refine ⟨h.length, h.rooted, h.bounded, fun x y => ?_, fun o j hj => ?_, fun o ho j => ?_,
      hinside⟩
    · rw [h.joined, eqvGen_met_fresh (h.unmet object hfirst)]
    · simp only [Function.update_apply] at hj
      split_ifs at hj with ho
      · cases hj
        exact ho ▸ Set.mem_insert _ _
      · exact Set.mem_insert_of_mem _ (h.first o j hj)
    · simp only [Function.update_apply] at ho
      split_ifs at ho with hne
      rintro (hj | hj)
      · cases hj
        exact hne rfl
      · exact h.unmet o ho j hj
  | some j =>
    obtain ⟨a, ha⟩ := h.rooted i
    obtain ⟨b, hb⟩ := h.rooted j
    have hjn := h.inside j object (h.first object j hfirst)
    obtain ⟨hra, hsame⟩ := findRoot_spec ha
    obtain ⟨hrb, hsame'⟩ := findRoot_spec (hsame.2 j b hb)
    have hboth := hsame.trans hsame'
    have hmeet : f.meet i object =
        { f with parent := (findRoot (findRoot f.parent i).2 j).2.set a b } := by
      rw [Forest.meet, hfirst]
      simp only [hra, hrb]
    rw [hmeet]
    generalize hparent : (findRoot (findRoot f.parent i).2 j).2 = parent at hboth
    have hrooted := hboth.rooted h.rooted
    have hia := hboth.2 i a ha
    have hjb := hboth.2 j b hb
    have hlt : a < parent.length := by
      rw [hboth.1, h.length]
      exact h.bounded i a hi ha
    refine ⟨?_, hrooted.link hia.up_root hjb.up_root hlt, fun x r hx hr => ?_, fun x y => ?_,
      fun o k hk => Set.mem_insert_of_mem _ (h.first o k hk), fun o ho k => ?_, hinside⟩
    · exact (List.length_set ..).trans (hboth.1.trans h.length)
    · obtain ⟨s, hs⟩ := h.rooted x
      obtain rfl := hr.unique ((hboth.2 x s hs).link hia.up_root hjb.up_root hlt)
      split_ifs
      · exact h.bounded j b hjn hb
      · exact h.bounded x s hx hs
    · rw [eqvGen_met_insert (h.first object j hfirst)]
      exact joined_link_iff hrooted
        (fun x y => (hboth.joined_iff h.rooted).trans (h.joined x y)) hia hjb hlt x y
    · rintro (hk | hk)
      · cases hk
        rw [hfirst] at ho
        cases ho
      · exact h.unmet o ho k hk

theorem Grown.meets {n i : Nat} {seen : Set (Nat × ι)} {f : Forest ι} (h : Grown n seen f)
    (hi : i < n) (participants : List ι) :
    Grown n (seen ∪ {x | x.1 = i ∧ x.2 ∈ participants})
      (participants.foldl (Forest.meet i) f) := by
  induction participants generalizing seen f with
  | nil => simpa using h
  | cons object participants ih =>
    have hseen : seen ∪ {x : Nat × ι | x.1 = i ∧ x.2 ∈ object :: participants} =
        insert (i, object) seen ∪ {x | x.1 = i ∧ x.2 ∈ participants} := by
      ext ⟨j, o⟩
      simp only [Set.mem_union, Set.mem_ofPred_eq, List.mem_cons, Set.mem_insert_iff, Prod.mk.injEq]
      tauto
    rw [List.foldl_cons, hseen]
    exact ih (h.meet hi object)

/-- Which transaction has which object. -/
def having (pending : List (List ι)) : Set (Nat × ι) :=
  {x | ∃ participants, pending[x.1]? = some participants ∧ x.2 ∈ participants}

omit [DecidableEq ι] in
/-- Before anything is seen each transaction is a tree of its own. -/
theorem grown_start (n : Nat) :
    Grown n (∅ : Set (Nat × ι)) ⟨List.range n, fun _ => none⟩ := by
  have hup : ∀ i, up (List.range n) i = i := by
    intro i
    rw [up, List.getD_eq_getElem?_getD]
    by_cases hi : i < n
    · rw [List.getElem?_range hi, Option.getD_some]
    · rw [List.getElem?_eq_none (by rw [List.length_range]; omega), Option.getD_none]
  refine ⟨List.length_range, fun i => ⟨i, .self (hup i)⟩, fun i r hi hr => ?_, fun i j => ?_,
    fun o i hi => ?_, fun _ _ _ => id, fun i o h => absurd h (Set.notMem_empty _)⟩
  · rwa [← (Root.self (hup i)).unique hr]
  · constructor
    · rintro ⟨r, hi, hj⟩
      rw [(Root.self (hup i)).unique hi, (Root.self (hup j)).unique hj]
      exact .refl r
    · intro h
      induction h with
      | rel i j h =>
        obtain ⟨_, h, _⟩ := h
        cases h
      | refl i => exact ⟨i, .self (hup i), .self (hup i)⟩
      | symm i j _ ih => exact ih.symm
      | trans i j k _ _ ih ih' => exact ih.trans ih'
  · cases hi

theorem lt_of_mem_zipIdx {α : Type} {l : List α} {t : α × Nat} (h : t ∈ l.zipIdx) :
    t.2 < l.length := by
  have hget := List.mem_zipIdx_iff_getElem?.mp h
  exact (List.getElem?_eq_some_iff.mp hget).1

theorem grown_forest (pending : List (List ι)) :
    Grown pending.length (having pending) (forest pending) := by
  have hfold : ∀ (txns : List (List ι × Nat)) (seen : Set (Nat × ι)) (f : Forest ι),
      (∀ t ∈ txns, t.2 < pending.length) → Grown pending.length seen f →
      Grown pending.length (seen ∪ {x | ∃ t ∈ txns, x.1 = t.2 ∧ x.2 ∈ t.1})
        (txns.foldl (fun f t => t.1.foldl (Forest.meet t.2) f) f) := by
    intro txns
    induction txns with
    | nil =>
      intro seen f _ h
      simpa using h
    | cons t txns ih =>
      intro seen f hlt h
      have hseen : seen ∪ {x : Nat × ι | ∃ t' ∈ t :: txns, x.1 = t'.2 ∧ x.2 ∈ t'.1} =
          (seen ∪ {x | x.1 = t.2 ∧ x.2 ∈ t.1}) ∪ {x | ∃ t' ∈ txns, x.1 = t'.2 ∧ x.2 ∈ t'.1} := by
        ext x
        simp only [Set.mem_union, Set.mem_ofPred_eq, List.mem_cons, exists_eq_or_imp, or_assoc]
      rw [List.foldl_cons, hseen]
      exact ih _ _ (fun t ht => hlt t (List.mem_cons_of_mem _ ht))
        (h.meets (hlt t List.mem_cons_self) t.1)
  have hall := hfold pending.zipIdx ∅ _ (fun t => lt_of_mem_zipIdx) (grown_start pending.length)
  have hhaving : having pending =
      ∅ ∪ {x : Nat × ι | ∃ t ∈ pending.zipIdx, x.1 = t.2 ∧ x.2 ∈ t.1} := by
    ext ⟨i, o⟩
    simp only [having, Set.empty_union, Set.mem_ofPred_eq, Prod.exists,
      List.mem_zipIdx_iff_getElem?]
    constructor
    · rintro ⟨participants, hi, ho⟩
      exact ⟨participants, i, hi, rfl, ho⟩
    · rintro ⟨participants, j, hj, rfl, ho⟩
      exact ⟨participants, hj, ho⟩
  rw [hhaving]
  exact hall

omit [DecidableEq ι] in
theorem map_fst_place (root i : Nat) (components : List (Nat × List Nat)) :
    (place root i components).map Prod.fst =
      if root ∈ components.map Prod.fst then components.map Prod.fst
      else components.map Prod.fst ++ [root] := by
  induction components with
  | nil => rfl
  | cons slot rest ih =>
    obtain ⟨r, slot⟩ := slot
    unfold place
    split_ifs with hr hmem hmem
    · rfl
    · exact absurd (by simp [hr]) hmem
    · rw [List.map_cons, ih, if_pos]
      · rfl
      · simpa [Ne.symm hr] using hmem
    · rw [List.map_cons, ih, if_neg]
      · rfl
      · simp only [List.map_cons, List.mem_cons, not_or] at hmem
        exact hmem.2

omit [DecidableEq ι] in
/-- Only the slot of the root changes. -/
theorem mem_place_iff {root i r : Nat} {slot : List Nat} {components : List (Nat × List Nat)}
    (hnodup : (components.map Prod.fst).Nodup) :
    (r, slot) ∈ place root i components ↔ (r ≠ root ∧ (r, slot) ∈ components) ∨
      (r = root ∧ ((∃ slot', (root, slot') ∈ components ∧ slot = slot' ++ [i]) ∨
        (root ∉ components.map Prod.fst ∧ slot = [i]))) := by
  induction components with
  | nil => simp [place]
  | cons head rest ih =>
    obtain ⟨r', slot'⟩ := head
    obtain ⟨hnotin, hnodup⟩ := List.nodup_cons.mp hnodup
    have hnone : ∀ {r s}, (r, s) ∈ rest → r ≠ r' := by
      rintro r s hmem rfl
      exact hnotin (List.mem_map.mpr ⟨(r, s), hmem, rfl⟩)
    unfold place
    split_ifs with hr
    · subst hr
      simp only [List.mem_cons, Prod.mk.injEq, List.map_cons, true_or, not_true, false_and,
        or_false, true_and]
      constructor
      · rintro (⟨rfl, rfl⟩ | hmem)
        · exact .inr ⟨rfl, slot', .inl rfl, rfl⟩
        · exact .inl ⟨hnone hmem, .inr hmem⟩
      · rintro (⟨hne, ⟨rfl, _⟩ | hmem⟩ | ⟨rfl, s, rfl | hmem, rfl⟩)
        · exact absurd rfl hne
        · exact .inr hmem
        · exact .inl ⟨rfl, rfl⟩
        · exact absurd rfl (hnone hmem)
    · simp only [List.mem_cons, ih hnodup, Prod.mk.injEq, List.map_cons, not_or]
      constructor
      · rintro (⟨rfl, rfl⟩ | ⟨hne, hmem⟩ | ⟨rfl, ⟨s, hmem, rfl⟩ | ⟨hnew, rfl⟩⟩)
        · exact .inl ⟨hr, .inl ⟨rfl, rfl⟩⟩
        · exact .inl ⟨hne, .inr hmem⟩
        · exact .inr ⟨rfl, .inl ⟨s, .inr hmem, rfl⟩⟩
        · exact .inr ⟨rfl, .inr ⟨⟨Ne.symm hr, hnew⟩, rfl⟩⟩
      · rintro (⟨hne, ⟨rfl, rfl⟩ | hmem⟩ | ⟨rfl, ⟨s, ⟨rfl, _⟩ | hmem, rfl⟩ | ⟨⟨_, hnew⟩, rfl⟩⟩)
        · exact .inl ⟨rfl, rfl⟩
        · exact .inr (.inl ⟨hne, hmem⟩)
        · exact absurd rfl hr
        · exact .inr (.inr ⟨rfl, .inl ⟨s, hmem, rfl⟩⟩)
        · exact .inr (.inr ⟨rfl, .inr ⟨hnew, rfl⟩⟩)

/-- The first `m` transactions, each in the slot of its root. -/
structure Sorted (parent : List Nat) (m : Nat) (components : List (Nat × List Nat)) : Prop where
  nodup : (components.map Prod.fst).Nodup
  mem : ∀ r slot, (r, slot) ∈ components →
    slot ≠ [] ∧ slot.Pairwise (· < ·) ∧ ∀ i, i ∈ slot ↔ i < m ∧ Root parent i r
  all : ∀ i < m, ∃ slot ∈ components, i ∈ slot.2
  first : 0 < m → ∃ slot, components.head? = some slot ∧ 0 ∈ slot.2

omit [DecidableEq ι] in
theorem Sorted.place {parent : List Nat} {m r : Nat} {components : List (Nat × List Nat)}
    (h : Sorted parent m components) (hr : Root parent m r) :
    Sorted parent (m + 1) (place r m components) := by
  refine ⟨?_, fun r' slot hslot => ?_, fun i hi => ?_, fun _ => ?_⟩
  · rw [map_fst_place]
    split_ifs with hmem
    · exact h.nodup
    · exact List.nodup_append.mpr ⟨h.nodup, List.nodup_singleton r,
        fun a ha b hb hab => hmem (List.mem_singleton.mp hb ▸ hab ▸ ha)⟩
  · rcases (mem_place_iff h.nodup).mp hslot with ⟨hne, hmem⟩ | ⟨rfl, ⟨s, hmem, rfl⟩ | ⟨hnew, rfl⟩⟩
    · obtain ⟨hnil, hsorted, hiff⟩ := h.mem r' slot hmem
      refine ⟨hnil, hsorted, fun i => (hiff i).trans ⟨fun hi => ⟨by omega, hi.2⟩, fun hi => ?_⟩⟩
      rcases Nat.lt_succ_iff_lt_or_eq.mp hi.1 with hlt | rfl
      · exact ⟨hlt, hi.2⟩
      · exact absurd (hi.2.unique hr) hne
    · obtain ⟨_, hsorted, hiff⟩ := h.mem r' s hmem
      refine ⟨by simp, ?_, fun i => ?_⟩
      · rw [List.pairwise_append]
        refine ⟨hsorted, List.pairwise_singleton .., fun i hi j hj => ?_⟩
        rw [List.mem_singleton.mp hj]
        exact ((hiff i).mp hi).1
      · rw [List.mem_append, List.mem_singleton, hiff]
        constructor
        · rintro (⟨hlt, hroot⟩ | rfl)
          · exact ⟨by omega, hroot⟩
          · exact ⟨by omega, hr⟩
        · rintro ⟨hlt, hroot⟩
          rcases Nat.lt_succ_iff_lt_or_eq.mp hlt with hlt | rfl
          · exact .inl ⟨hlt, hroot⟩
          · exact .inr rfl
    · refine ⟨by simp, List.pairwise_singleton .., fun i => ?_⟩
      rw [List.mem_singleton]
      constructor
      · rintro rfl
        exact ⟨by omega, hr⟩
      · rintro ⟨hlt, hroot⟩
        rcases Nat.lt_succ_iff_lt_or_eq.mp hlt with hlt | rfl
        · obtain ⟨slot, hslot, hi⟩ := h.all i hlt
          have hkey := (((h.mem slot.1 slot.2 hslot).2.2 i).mp hi).2.unique hroot
          exact absurd (List.mem_map.mpr ⟨slot, hslot, hkey⟩) hnew
        · rfl
  · rw [mem_place]
    rcases Nat.lt_succ_iff_lt_or_eq.mp hi with hlt | rfl
    · exact .inr (h.all i hlt)
    · exact .inl rfl
  · cases components with
    | nil =>
      have hm : m = 0 := by
        by_contra hne
        obtain ⟨slot, hslot, _⟩ := h.all 0 (by omega)
        cases hslot
      exact ⟨(r, [m]), rfl, by simp [hm]⟩
    | cons slot rest =>
      have hpos : 0 < m := by
        by_contra hzero
        obtain ⟨hnil, _, hiff⟩ := h.mem slot.1 slot.2 List.mem_cons_self
        obtain ⟨i, hi⟩ := List.exists_mem_of_ne_nil _ hnil
        have := ((hiff i).mp hi).1
        omega
      obtain ⟨slot', hhead, hzero⟩ := h.first hpos
      obtain rfl : slot = slot' := Option.some.inj hhead
      unfold Boats.place
      split_ifs
      · exact ⟨_, rfl, List.mem_append_left _ hzero⟩
      · exact ⟨_, rfl, hzero⟩

/-- A transaction of the one is older than every transaction of the other. -/
def Before (c d : List Nat) : Prop := ∃ i ∈ c, ∀ j ∈ d, i < j

section

omit [DecidableEq ι]

theorem of_mem_place {root m : Nat} {components : List (Nat × List Nat)} {slot : Nat × List Nat}
    (h : slot ∈ place root m components) :
    slot.2 = [m] ∨ ∃ slot' ∈ components, ∀ j ∈ slot.2, j ∈ slot'.2 ∨ j = m := by
  induction components with
  | nil =>
    rw [List.mem_singleton.mp h]
    exact .inl rfl
  | cons head rest ih =>
    unfold place at h
    split_ifs at h with hr
    · rcases List.mem_cons.mp h with rfl | h
      · exact .inr ⟨head, List.mem_cons_self, fun j hj => by simpa using hj⟩
      · exact .inr ⟨slot, List.mem_cons_of_mem _ h, fun j => .inl⟩
    · rcases List.mem_cons.mp h with rfl | h
      · exact .inr ⟨head, List.mem_cons_self, fun j => .inl⟩
      · rcases ih h with hnew | ⟨slot', hslot', hj⟩
        · exact .inl hnew
        · exact .inr ⟨slot', List.mem_cons_of_mem _ hslot', hj⟩

/-- A slot keeps its oldest, and a new one comes last. -/
theorem pairwise_place {root m : Nat} {components : List (Nat × List Nat)}
    (hslots : ∀ slot ∈ components, slot.2 ≠ [] ∧ ∀ i ∈ slot.2, i < m)
    (h : components.Pairwise fun a b => Before a.2 b.2) :
    (place root m components).Pairwise fun a b => Before a.2 b.2 := by
  induction components with
  | nil => exact List.pairwise_singleton ..
  | cons head rest ih =>
    obtain ⟨hhead, hrest⟩ := List.pairwise_cons.mp h
    obtain ⟨hnil, hlt⟩ := hslots head List.mem_cons_self
    unfold place
    split_ifs with hr
    · refine List.pairwise_cons.mpr ⟨fun slot hslot => ?_, hrest⟩
      obtain ⟨i, hi, hless⟩ := hhead slot hslot
      exact ⟨i, List.mem_append_left _ hi, hless⟩
    · refine List.pairwise_cons.mpr ⟨fun slot hslot => ?_,
        ih (fun slot hslot => hslots slot (List.mem_cons_of_mem _ hslot)) hrest⟩
      rcases of_mem_place hslot with hnew | ⟨slot', hslot', hj⟩
      · obtain ⟨i, hi⟩ := List.exists_mem_of_ne_nil _ hnil
        refine ⟨i, hi, fun j hj => ?_⟩
        rw [hnew, List.mem_singleton] at hj
        exact hj ▸ hlt i hi
      · obtain ⟨i, hi, hless⟩ := hhead slot' hslot'
        refine ⟨i, hi, fun j hmem => ?_⟩
        rcases hj j hmem with hold | rfl
        · exact hless j hold
        · exact hlt i hi

theorem sorted_slots {parent : List Nat} (h : Rooted parent) (n : Nat) :
    ∃ components, Sorted parent n components ∧ slots parent n = components.map Prod.snd ∧
      components.Pairwise fun a b => Before a.2 b.2 := by
  have hfold : ∀ m, ∃ components parent', (List.range m).foldl (fun acc i =>
        let found := findRoot acc.2 i
        (place found.1 i acc.1, found.2)) (([] : List (Nat × List Nat)), parent) =
          (components, parent') ∧
      Sorted parent m components ∧ SameRoots parent parent' ∧
      components.Pairwise fun a b => Before a.2 b.2 := by
    intro m
    induction m with
    | zero =>
      refine ⟨[], parent, rfl, ⟨List.nodup_nil, ?_, ?_, ?_⟩, .refl parent, .nil⟩
      all_goals simp
    | succ m ih =>
      obtain ⟨components, parent', heq, hsorted, hsame, hbefore⟩ := ih
      obtain ⟨r, hr⟩ := h m
      obtain ⟨hroot, hsame'⟩ := findRoot_spec (hsame.2 m r hr)
      rw [List.range_succ, List.foldl_append, heq]
      refine ⟨place r m components, (findRoot parent' m).2, ?_, hsorted.place hr,
        hsame.trans hsame', pairwise_place (fun slot hslot => ?_) hbefore⟩
      · rw [← hroot]
        rfl
      · obtain ⟨hnil, _, hiff⟩ := hsorted.mem slot.1 slot.2 hslot
        exact ⟨hnil, fun i hi => ((hiff i).mp hi).1⟩
  obtain ⟨components, parent', heq, hsorted, _, hbefore⟩ := hfold n
  refine ⟨components, hsorted, ?_, hbefore⟩
  rw [slots, heq]

end

/-- The two transactions hang together, directly or through others. -/
def Linked (pending : List (List ι)) : Nat → Nat → Prop := Relation.EqvGen (Met (having pending))

variable {pending : List (List ι)}

/-- A component is a class of transactions that hang together, in their order. -/
theorem mem_component {component : List Nat} (h : component ∈ txnComponents pending) :
    component ≠ [] ∧ component.Pairwise (· < ·) ∧
      ∀ i ∈ component, ∀ j, j ∈ component ↔ j < pending.length ∧ Linked pending i j := by
  have hgrown := grown_forest pending
  obtain ⟨components, hsorted, hslots, _⟩ := sorted_slots hgrown.rooted pending.length
  rw [txnComponents, hslots] at h
  obtain ⟨⟨r, slot⟩, hmem, rfl⟩ := List.mem_map.mp h
  obtain ⟨hnil, hpairwise, hiff⟩ := hsorted.mem r slot hmem
  refine ⟨hnil, hpairwise, fun i hi j => ?_⟩
  obtain ⟨_, hir⟩ := (hiff i).mp hi
  rw [hiff]
  refine and_congr_right fun _ => ?_
  rw [Linked, ← hgrown.joined]
  constructor
  · exact fun hj => ⟨r, hir, hj⟩
  · rintro ⟨s, his, hjs⟩
    rwa [hir.unique his]

theorem nodup_component {component : List Nat} (h : component ∈ txnComponents pending) :
    component.Nodup :=
  (mem_component h).2.1.imp fun hlt => Nat.ne_of_lt hlt

/-- Every transaction is in one component, once. -/
theorem flatten_components (pending : List (List ι)) :
    (txnComponents pending).flatten.Perm (List.range pending.length) := by
  have hgrown := grown_forest pending
  obtain ⟨components, hsorted, hslots, _⟩ := sorted_slots hgrown.rooted pending.length
  have hnodup : (txnComponents pending).flatten.Nodup := by
    rw [List.nodup_flatten]
    refine ⟨fun component => nodup_component, ?_⟩
    rw [txnComponents, hslots, List.pairwise_map]
    have hkeys : components.Pairwise fun a b => a.1 ≠ b.1 := List.pairwise_map.mp hsorted.nodup
    refine hkeys.imp_of_mem fun {a b} ha hb hne i hia hib => hne ?_
    exact (((hsorted.mem a.1 a.2 ha).2.2 i).mp hia).2.unique
      (((hsorted.mem b.1 b.2 hb).2.2 i).mp hib).2
  refine (List.perm_ext_iff_of_nodup hnodup List.nodup_range).mpr fun i => ?_
  rw [List.mem_flatten, List.mem_range]
  constructor
  · rintro ⟨component, hc, hi⟩
    exact (((mem_component hc).2.2 i hi i).mp hi).1
  · intro hi
    exact mem_txnComponents hi

/-- The components are in the order of their oldest transactions. -/
theorem pairwise_components (pending : List (List ι)) :
    (txnComponents pending).Pairwise Before := by
  obtain ⟨components, _, hslots, hbefore⟩ :=
    sorted_slots (grown_forest pending).rooted pending.length
  rw [txnComponents, hslots, List.pairwise_map]
  exact hbefore

/-- The oldest transaction is in the first component. -/
theorem first_component (h : pending ≠ []) :
    ∃ component rest, txnComponents pending = component :: rest ∧ 0 ∈ component := by
  have hgrown := grown_forest pending
  obtain ⟨components, hsorted, hslots, _⟩ := sorted_slots hgrown.rooted pending.length
  obtain ⟨slot, hhead, hzero⟩ := hsorted.first (List.length_pos_iff.mpr h)
  obtain ⟨rest, rfl⟩ := List.head?_eq_some_iff.mp hhead
  exact ⟨slot.2, rest.map Prod.snd, by rw [txnComponents, hslots, List.map_cons], hzero⟩

end Fafo.Boats
