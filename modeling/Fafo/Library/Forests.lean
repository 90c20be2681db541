import Mathlib.Data.List.Nodup
import Mathlib.Data.List.Perm.Subperm
import Mathlib.Logic.Relation

/-! Forests of parent pointers in a list: roots, path compression, and the joining of two trees. -/
namespace Forests

/-- The parent of a node; one past the end of the list is a root. -/
def up (parent : List Nat) (i : Nat) : Nat := parent.getD i i

/-- From `i` it is `k` steps up to the root `r`. -/
inductive Climb (parent : List Nat) : Nat → Nat → Nat → Prop
  | root {i : Nat} (h : up parent i = i) : Climb parent 0 i i
  | step {k i r : Nat} (h : up parent i ≠ i) (hr : Climb parent k (up parent i) r) :
      Climb parent (k + 1) i r

def Root (parent : List Nat) (i r : Nat) : Prop := ∃ k, Climb parent k i r

/-- Every climb ends. -/
def Rooted (parent : List Nat) : Prop := ∀ i, ∃ r, Root parent i r

/-- The two have the same root. -/
def Joined (parent : List Nat) (i j : Nat) : Prop := ∃ r, Root parent i r ∧ Root parent j r

variable {parent parent' : List Nat} {i j k l r s : Nat}

theorem up_set (hi : i < parent.length) :
    up (parent.set i r) j = if i = j then r else up parent j := by
  unfold up
  rw [List.getD_eq_getElem?_getD, List.getD_eq_getElem?_getD, List.getElem?_set]
  split_ifs with hij
  · rfl
  · rfl

theorem lt_length_of_up_ne (h : up parent i ≠ i) : i < parent.length := by
  by_contra hge
  apply h
  rw [up, List.getD_eq_getElem?_getD, List.getElem?_eq_none (by omega), Option.getD_none]

theorem Climb.unique (h : Climb parent k i r) (h' : Climb parent l i s) : k = l ∧ r = s := by
  induction h generalizing l s with
  | root hroot =>
    cases h' with
    | root => exact ⟨rfl, rfl⟩
    | step hne _ => exact absurd hroot hne
  | step hne _ ih =>
    cases h' with
    | root hroot => exact absurd hroot hne
    | step _ hr =>
      obtain ⟨rfl, rfl⟩ := ih hr
      exact ⟨rfl, rfl⟩

theorem Root.unique (h : Root parent i r) (h' : Root parent i s) : r = s := by
  obtain ⟨_, h⟩ := h
  obtain ⟨_, h'⟩ := h'
  exact (h.unique h').2

theorem Climb.up_root (h : Climb parent k i r) : up parent r = r := by
  induction h with
  | root h => exact h
  | step _ _ ih => exact ih

theorem Root.up_root (h : Root parent i r) : up parent r = r := by
  obtain ⟨_, h⟩ := h
  exact h.up_root

theorem Root.self (h : up parent i = i) : Root parent i i := ⟨0, .root h⟩

theorem Root.of_up (h : Root parent (up parent i) r) : Root parent i r := by
  by_cases hi : up parent i = i
  · rwa [hi] at h
  · obtain ⟨k, h⟩ := h
    exact ⟨k + 1, .step hi h⟩

/-- The nodes below the root on a climb are distinct, for they are at distinct heights. -/
theorem Climb.path (h : Climb parent k i r) : ∃ path : List Nat, path.length = k ∧ path.Nodup ∧
    ∀ j ∈ path, j < parent.length ∧ ∃ l ≤ k, Climb parent l j r := by
  induction h with
  | root h => exact ⟨[], rfl, List.nodup_nil, by simp⟩
  | @step k i r hne hr ih =>
    obtain ⟨path, hlength, hnodup, hpath⟩ := ih
    refine ⟨i :: path, by simp [hlength], List.nodup_cons.mpr ⟨fun hi => ?_, hnodup⟩, ?_⟩
    · obtain ⟨_, l, hl, hclimb⟩ := hpath i hi
      have := (hclimb.unique (.step hne hr)).1
      omega
    · intro j hj
      rcases List.mem_cons.mp hj with rfl | hj
      · exact ⟨lt_length_of_up_ne hne, k + 1, Nat.le_refl _, .step hne hr⟩
      · obtain ⟨hlt, l, hl, hclimb⟩ := hpath j hj
        exact ⟨hlt, l, by omega, hclimb⟩

/-- No climb is longer than the list. -/
theorem Climb.le_length (h : Climb parent k i r) : k ≤ parent.length := by
  obtain ⟨path, rfl, hnodup, hpath⟩ := h.path
  have hsub : path ⊆ List.range parent.length :=
    fun j hj => List.mem_range.mpr (hpath j hj).1
  simpa using (hnodup.subperm hsub).length_le

/-- The two forests have the same roots. -/
def SameRoots (parent parent' : List Nat) : Prop :=
  parent'.length = parent.length ∧ ∀ i r, Root parent i r → Root parent' i r

theorem SameRoots.refl (parent : List Nat) : SameRoots parent parent := ⟨rfl, fun _ _ h => h⟩

theorem SameRoots.trans {parent'' : List Nat} (h : SameRoots parent parent')
    (h' : SameRoots parent' parent'') : SameRoots parent parent'' :=
  ⟨h'.1.trans h.1, fun i r hr => h'.2 i r (h.2 i r hr)⟩

theorem SameRoots.rooted (h : SameRoots parent parent') (hrooted : Rooted parent) :
    Rooted parent' := by
  intro i
  obtain ⟨r, hr⟩ := hrooted i
  exact ⟨r, h.2 i r hr⟩

theorem SameRoots.joined_iff (h : SameRoots parent parent') (hrooted : Rooted parent) :
    Joined parent' i j ↔ Joined parent i j := by
  constructor
  · rintro ⟨r, hi, hj⟩
    obtain ⟨a, ha⟩ := hrooted i
    obtain ⟨b, hb⟩ := hrooted j
    obtain rfl := hi.unique (h.2 i a ha)
    obtain rfl := hj.unique (h.2 j b hb)
    exact ⟨r, ha, hb⟩
  · rintro ⟨r, hi, hj⟩
    exact ⟨r, h.2 i r hi, h.2 j r hj⟩

/-- A node below its root may point straight at it. -/
theorem SameRoots.compress (h : Root parent i r) (hne : i ≠ r) :
    SameRoots parent (parent.set i r) := by
  have hup : up parent i ≠ i := by
    intro hup
    exact hne (Root.unique (.self hup) h)
  have hlt := lt_length_of_up_ne hup
  have hroot : up (parent.set i r) r = r := by rw [up_set hlt, if_neg hne, h.up_root]
  refine ⟨List.length_set .., fun j s hj => ?_⟩
  obtain ⟨k, hj⟩ := hj
  induction hj with
  | @root j hj =>
    have hij : i ≠ j := fun hij => hup (hij ▸ hj)
    exact .self (by rw [up_set hlt, if_neg hij, hj])
  | @step k j s hj hclimb ih =>
    refine Root.of_up ?_
    rw [up_set hlt]
    split_ifs with hij
    · subst hij
      obtain rfl := h.unique ⟨_, .step hj hclimb⟩
      exact .self hroot
    · exact ih

/-- The root `a` now points at the root `b`. -/
theorem Root.link {a b : Nat} (ha : up parent a = a) (hb : up parent b = b)
    (hlt : a < parent.length) (h : Root parent i r) :
    Root (parent.set a b) i (if r = a then b else r) := by
  have hroot : Root (parent.set a b) b b := by
    refine .self ?_
    rw [up_set hlt]
    split_ifs
    · rfl
    · exact hb
  obtain ⟨k, h⟩ := h
  induction h with
  | @root i hi =>
    split_ifs with hia
    · subst hia
      exact .of_up (by rwa [up_set hlt, if_pos rfl])
    · exact .self (by rw [up_set hlt, if_neg (Ne.symm hia), hi])
  | @step k i r hi _ ih =>
    have hia : a ≠ i := fun hia => hi (hia ▸ ha)
    refine .of_up ?_
    rwa [up_set hlt, if_neg hia]

theorem Rooted.link {a b : Nat} (h : Rooted parent) (ha : up parent a = a) (hb : up parent b = b)
    (hlt : a < parent.length) : Rooted (parent.set a b) := by
  intro i
  obtain ⟨r, hr⟩ := h i
  exact ⟨_, hr.link ha hb hlt⟩

/-- Two nodes are joined now if they were, or if one was with `a` and the other with `b`. -/
theorem joined_link {a b : Nat} (h : Rooted parent) (ha : up parent a = a) (hb : up parent b = b)
    (hlt : a < parent.length) : Joined (parent.set a b) i j ↔ Joined parent i j ∨
      (Joined parent i a ∧ Joined parent j b) ∨ (Joined parent i b ∧ Joined parent j a) := by
  obtain ⟨r, hr⟩ := h i
  obtain ⟨s, hs⟩ := h j
  have hjoined : ∀ {x y p q : Nat}, Root parent x p → Root parent y q →
      (Joined parent x y ↔ p = q) := by
    intro x y p q hp hq
    constructor
    · rintro ⟨t, hx, hy⟩
      exact (hp.unique hx).trans (hy.unique hq)
    · rintro rfl
      exact ⟨p, hp, hq⟩
  have hset : Joined (parent.set a b) i j ↔
      (if r = a then b else r) = if s = a then b else s := by
    constructor
    · rintro ⟨t, hi, hj⟩
      exact ((hr.link ha hb hlt).unique hi).trans (hj.unique (hs.link ha hb hlt))
    · intro heq
      exact ⟨_, hr.link ha hb hlt, heq ▸ hs.link ha hb hlt⟩
  rw [hset, hjoined hr hs, hjoined hr (.self ha), hjoined hr (.self hb), hjoined hs (.self ha),
    hjoined hs (.self hb)]
  split_ifs with hra hsa hsa
  · simp [hra, hsa]
  · constructor
    · rintro rfl
      exact .inr (.inl ⟨hra, rfl⟩)
    · rintro (rfl | ⟨_, rfl⟩ | ⟨_, hs⟩)
      · exact absurd hra hsa
      · rfl
      · exact absurd hs hsa
  · constructor
    · rintro rfl
      exact .inr (.inr ⟨rfl, hsa⟩)
    · rintro (rfl | ⟨hr, _⟩ | ⟨rfl, _⟩)
      · exact absurd hsa hra
      · exact absurd hr hra
      · rfl
  · constructor
    · exact .inl
    · rintro (h | ⟨hr, _⟩ | ⟨_, hs⟩)
      · exact h
      · exact absurd hr hra
      · exact absurd hs hsa

theorem Joined.symm (h : Joined parent i j) : Joined parent j i := by
  obtain ⟨r, hi, hj⟩ := h
  exact ⟨r, hj, hi⟩

theorem Joined.trans (h : Joined parent i j) (h' : Joined parent j k) : Joined parent i k := by
  obtain ⟨r, hi, hj⟩ := h
  obtain ⟨s, hj', hk⟩ := h'
  obtain rfl := hj.unique hj'
  exact ⟨r, hi, hk⟩

theorem Rooted.joined_self (h : Rooted parent) (i : Nat) : Joined parent i i := by
  obtain ⟨r, hr⟩ := h i
  exact ⟨r, hr, hr⟩

/-- Joining what two related nodes hang from closes the relation. -/
theorem joined_link_iff {R : Nat → Nat → Prop} {a b x y : Nat} (h : Rooted parent)
    (hR : ∀ i j, Joined parent i j ↔ Relation.EqvGen R i j) (hx : Root parent x a)
    (hy : Root parent y b) (hlt : a < parent.length) (i j : Nat) :
    Joined (parent.set a b) i j ↔
      Relation.EqvGen (fun i j => R i j ∨ (i = x ∧ j = y)) i j := by
  have hmono : ∀ {i j}, Joined parent i j →
      Relation.EqvGen (fun i j => R i j ∨ (i = x ∧ j = y)) i j :=
    fun hij => Relation.EqvGen.mono (fun _ _ h => Or.inl h) _ _ ((hR _ _).mp hij)
  have hxa : Joined parent x a := ⟨a, hx, .self hx.up_root⟩
  have hyb : Joined parent y b := ⟨b, hy, .self hy.up_root⟩
  have hxy : Relation.EqvGen (fun i j => R i j ∨ (i = x ∧ j = y)) x y :=
    .rel _ _ (.inr ⟨rfl, rfl⟩)
  have hlink := fun i j => joined_link (i := i) (j := j) h hx.up_root hy.up_root hlt
  constructor
  · intro hij
    rcases (hlink i j).mp hij with hij | ⟨hi, hj⟩ | ⟨hi, hj⟩
    · exact hmono hij
    · exact ((hmono (hi.trans hxa.symm)).trans _ _ _ hxy).trans _ _ _ (hmono (hyb.trans hj.symm))
    · exact ((hmono (hi.trans hyb.symm)).trans _ _ _ (hxy.symm _ _)).trans _ _ _
        (hmono (hxa.trans hj.symm))
  · intro hij
    induction hij with
    | rel i j hij =>
      rcases hij with hij | ⟨rfl, rfl⟩
      · exact (hlink i j).mpr (.inl ((hR i j).mpr (.rel _ _ hij)))
      · exact (hlink i j).mpr (.inr (.inl ⟨hxa, hyb⟩))
    | refl i => exact (hlink i i).mpr (.inl (h.joined_self i))
    | symm i j _ ih => exact ih.symm
    | trans i j k _ _ ih ih' => exact ih.trans ih'

end Forests
