import Fafo.Components

/-! The union-find as it runs, where a `find` may recurse without end and an index may be out of
bounds: neither happens, and what comes back are the connected components in order. -/
namespace Fafo.Boats

open Forests

variable {ι : Type}

/-- `find` on a stack of `depth` frames; `none` if it needs more, or indexes out of bounds. -/
def findWithin : Nat → List Nat → Nat → Option (Nat × List Nat)
  | 0, _, _ => none
  | depth + 1, parent, i =>
    parent[i]?.bind fun next =>
      if next = i then some (i, parent)
      else
        (findWithin depth parent next).map fun (root, parent) => (root, parent.set i root)

section Decidable

variable [DecidableEq ι]

def Forest.meetWithin (depth i : Nat) (f : Forest ι) (object : ι) : Option (Forest ι) :=
  match f.firstTxnWith object with
  | some j =>
    (findWithin depth f.parent i).bind fun (a, parent) =>
    (findWithin depth parent j).bind fun (b, parent) =>
      if a < parent.length then some { f with parent := parent.set a b } else none
  | none => some { f with firstTxnWith := Function.update f.firstTxnWith object (some i) }

def forestWithin (depth : Nat) (pending : List (List ι)) : Option (Forest ι) :=
  pending.zipIdx.foldlM
    (fun f (participants, i) => participants.foldlM (Forest.meetWithin depth i) f)
    ⟨List.range pending.length, fun _ => none⟩

end Decidable

def placeWithin (depth : Nat) :
    List (Nat × List Nat) × List Nat → Nat → Option (List (Nat × List Nat) × List Nat)
  | (components, parent), i =>
    (findWithin depth parent i).map fun (root, parent) => (place root i components, parent)

def slotsWithin (depth : Nat) (parent : List Nat) (n : Nat) : Option (List (List Nat)) :=
  ((List.range n).foldlM (placeWithin depth) ([], parent)).map fun s => s.1.map Prod.snd

def txnComponentsWithin [DecidableEq ι] (depth : Nat) (pending : List (List ι)) :
    Option (List (List Nat)) :=
  (forestWithin depth pending).bind fun f => slotsWithin depth f.parent pending.length

theorem foldlM_eq_foldl {α β : Type} {P : β → Prop} {f : β → α → β} {g : β → α → Option β}
    {l : List α} {b : β} (hb : P b)
    (hstep : ∀ b, P b → ∀ a ∈ l, g b a = some (f b a) ∧ P (f b a)) :
    l.foldlM g b = some (l.foldl f b) ∧ P (l.foldl f b) := by
  induction l generalizing b with
  | nil => exact ⟨rfl, hb⟩
  | cons a l ih =>
    obtain ⟨heq, hnext⟩ := hstep b hb a List.mem_cons_self
    rw [List.foldlM_cons, heq]
    exact ih hnext fun b hb a ha => hstep b hb a (List.mem_cons_of_mem _ ha)

theorem getElem?_up {parent : List Nat} {i : Nat} (h : i < parent.length) :
    parent[i]? = some (up parent i) := by
  rw [up, List.getD_eq_getElem?_getD, List.getElem?_eq_getElem h, Option.getD_some]

/-- A climb that ends inside the list needs a frame for each node on it. -/
theorem findWithin_eq {parent : List Nat} {k i r fuel depth : Nat} (h : Climb parent k i r)
    (hr : r < parent.length) (hfuel : k ≤ fuel) (hdepth : k < depth) :
    findWithin depth parent i = some (find fuel parent i) := by
  induction h generalizing fuel depth with
  | @root i h =>
    obtain ⟨depth, rfl⟩ : ∃ d, depth = d + 1 := ⟨depth - 1, by omega⟩
    have hget : parent[i]? = some i := by rw [getElem?_up hr, h]
    have hfind : find fuel parent i = (i, parent) := by
      cases fuel with
      | zero => rfl
      | succ fuel => exact if_pos h
    rw [findWithin, hget, Option.bind_some, if_pos rfl, hfind]
  | @step k i r hne _ ih =>
    obtain ⟨depth, rfl⟩ : ∃ d, depth = d + 1 := ⟨depth - 1, by omega⟩
    obtain ⟨fuel, rfl⟩ : ∃ n, fuel = n + 1 := ⟨fuel - 1, by omega⟩
    have hget : parent[i]? = some (up parent i) := getElem?_up (lt_length_of_up_ne hne)
    have hnext : findWithin depth parent (up parent i) = some (find fuel parent (up parent i)) :=
      ih hr (by omega) (by omega)
    have hfind : find (fuel + 1) parent i = ((find fuel parent (up parent i)).1,
        (find fuel parent (up parent i)).2.set i (find fuel parent (up parent i)).1) :=
      if_neg hne
    rw [findWithin, hget, Option.bind_some, if_neg hne, hnext, hfind]
    rfl

theorem findWithin_root {parent : List Nat} {i r depth : Nat} (h : Root parent i r)
    (hr : r < parent.length) (hdepth : parent.length < depth) :
    findWithin depth parent i = some (findRoot parent i) := by
  obtain ⟨k, h⟩ := h
  have hk := h.le_length
  exact findWithin_eq h hr hk (by omega)

section Decidable

variable [DecidableEq ι]

theorem Grown.meetWithin {n i depth : Nat} {seen : Set (Nat × ι)} {f : Forest ι}
    (h : Grown n seen f) (hi : i < n) (hdepth : n < depth) (object : ι) :
    f.meetWithin depth i object = some (f.meet i object) := by
  cases hfirst : f.firstTxnWith object with
  | none => rw [Forest.meetWithin, Forest.meet, hfirst]
  | some j =>
    obtain ⟨a, ha⟩ := h.rooted i
    obtain ⟨b, hb⟩ := h.rooted j
    have han := h.bounded i a hi ha
    have hbn := h.bounded j b (h.inside j object (h.first object j hfirst)) hb
    obtain ⟨hra, hsame⟩ := findRoot_spec ha
    have hb' := hsame.2 j b hb
    obtain ⟨_, hsame'⟩ := findRoot_spec hb'
    have hlength : (findRoot f.parent i).2.length = n := hsame.1.trans h.length
    have hlength' : (findRoot (findRoot f.parent i).2 j).2.length = n := hsame'.1.trans hlength
    have hfind : findWithin depth f.parent i = some (findRoot f.parent i) :=
      findWithin_root ha (by rwa [h.length]) (by rwa [h.length])
    have hfind' : findWithin depth (findRoot f.parent i).2 j =
        some (findRoot (findRoot f.parent i).2 j) :=
      findWithin_root hb' (by rwa [hlength]) (by rwa [hlength])
    rw [Forest.meetWithin, Forest.meet, hfirst]
    simp only [hfind, hfind', Option.bind_some]
    rw [if_pos (by rwa [hra, hlength'])]

theorem Grown.foldlM_meetWithin {n i depth : Nat} {seen : Set (Nat × ι)} {f : Forest ι}
    (h : Grown n seen f) (hi : i < n) (hdepth : n < depth) (participants : List ι) :
    participants.foldlM (Forest.meetWithin depth i) f =
      some (participants.foldl (Forest.meet i) f) := by
  have hfold := foldlM_eq_foldl (P := fun f => ∃ seen, Grown n seen f) ⟨seen, h⟩
    fun f ⟨seen, h⟩ object (_ : object ∈ participants) =>
      ⟨h.meetWithin hi hdepth object, _, h.meet hi object⟩
  exact hfold.1

theorem forestWithin_eq {pending : List (List ι)} {depth : Nat} (h : pending.length < depth) :
    forestWithin depth pending = some (forest pending) := by
  have hfold := foldlM_eq_foldl (P := fun f => ∃ seen, Grown pending.length seen f)
    ⟨∅, grown_start (ι := ι) pending.length⟩
    fun f ⟨seen, hf⟩ t (ht : t ∈ pending.zipIdx) =>
      ⟨hf.foldlM_meetWithin (lt_of_mem_zipIdx ht) h t.1, _, hf.meets (lt_of_mem_zipIdx ht) t.1⟩
  exact hfold.1

end Decidable

theorem slotsWithin_eq {parent : List Nat} {n depth : Nat} (h : Rooted parent)
    (hbounded : ∀ i r, i < n → Root parent i r → r < parent.length)
    (hdepth : parent.length < depth) :
    slotsWithin depth parent n = some (slots parent n) := by
  have hfold := foldlM_eq_foldl (P := fun s : List (Nat × List Nat) × List Nat =>
      SameRoots parent s.2) (g := placeWithin depth) (b := ([], parent)) (l := List.range n)
    (f := fun acc i =>
      let found := findRoot acc.2 i
      (place found.1 i acc.1, found.2)) (SameRoots.refl parent) fun s hs i hi => by
      obtain ⟨r, hr⟩ := h i
      have hlt := hbounded i r (List.mem_range.mp hi) hr
      have hroot := hs.2 i r hr
      have hfind : findWithin depth s.2 i = some (findRoot s.2 i) :=
        findWithin_root hroot (by rwa [hs.1]) (by rwa [hs.1])
      exact ⟨by rw [placeWithin, hfind, Option.map_some], hs.trans (findRoot_spec hroot).2⟩
  rw [slotsWithin, hfold.1, Option.map_some, slots]

theorem txnComponentsWithin_eq [DecidableEq ι] {pending : List (List ι)} {depth : Nat}
    (h : pending.length < depth) :
    txnComponentsWithin depth pending = some (txnComponents pending) := by
  have hgrown := grown_forest pending
  rw [txnComponentsWithin, forestWithin_eq h, Option.bind_some, txnComponents]
  apply slotsWithin_eq hgrown.rooted
  · intro i r hi hr
    rw [hgrown.length]
    exact hgrown.bounded i r hi hr
  · rwa [hgrown.length]

/-- The lists are the connected components of the transactions that share participants. -/
structure Components (pending : List (List ι)) (components : List (List Nat)) : Prop where
  partition : components.flatten.Perm (List.range pending.length)
  nonempty : ∀ c ∈ components, c ≠ []
  linked : ∀ i < pending.length, ∀ j < pending.length,
    (∃ c ∈ components, i ∈ c ∧ j ∈ c) ↔ Linked pending i j
  ascending : ∀ c ∈ components, c.Pairwise (· < ·)
  ordered : components.Pairwise Before

variable [DecidableEq ι]

theorem components_txnComponents (pending : List (List ι)) :
    Components pending (txnComponents pending) := by
  refine ⟨flatten_components pending, fun c hc => (mem_component hc).1, fun i hi j hj => ?_,
    fun c hc => (mem_component hc).2.1, pairwise_components pending⟩
  constructor
  · rintro ⟨c, hc, hic, hjc⟩
    exact (((mem_component hc).2.2 i hic j).mp hjc).2
  · intro hlinked
    obtain ⟨c, hc, hic⟩ := mem_txnComponents hi
    exact ⟨c, hc, hic, ((mem_component hc).2.2 i hic j).mpr ⟨hj, hlinked⟩⟩

/-- With a frame more than there are transactions every `find` returns, and what comes back are
the connected components. -/
theorem txnComponents_connected (pending : List (List ι)) :
    ∃ components, (∀ depth, pending.length < depth →
        txnComponentsWithin depth pending = some components) ∧
      Components pending components :=
  ⟨txnComponents pending, fun _ => txnComponentsWithin_eq, components_txnComponents pending⟩

end Fafo.Boats
