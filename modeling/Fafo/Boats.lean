import Mathlib.Data.List.AList
import Mathlib.Data.List.Sort
import Mathlib.Logic.Function.Basic
import Mathlib.Algebra.GroupWithZero.Nat
import Fafo.Library.Groups

/-! A worker's boats: what is applied but unshipped, how a boat is cut, and what a revert drops. -/
namespace Fafo

/-- The equality of ordered objects is lawful, by one proof in all that decides membership. -/
instance lawfulBEq_of_linearOrder {ι : Type} [LinearOrder ι] : LawfulBEq ι := inferInstance

/-- A locally committed transaction that awaits durability; `ω` are its waiters. -/
structure AppliedTxn (ι ω : Type) where
  participants : List ι
  waiter : Option ω

/-- The dirty objects with their sizes and the running total of these, the applied transactions in
order, and the objects of the boat that is in flight; for the record, whether a subtraction from the
total has ever saturated. -/
structure Boats (ι ω : Type) where
  dirty : AList fun _ : ι => Nat := ∅
  dirtyBytes : Nat := 0
  pending : List (AppliedTxn ι ω) := []
  inflight : Option (List ι) := none
  saturated : Bool := false

namespace Boats

variable {ι ω : Type}

/-- The root of `i`, with the path to it compressed. No path is longer than the list. -/
def find : Nat → List Nat → Nat → Nat × List Nat
  | 0, parent, i => (i, parent)
  | fuel + 1, parent, i =>
    let next := parent.getD i i
    if next = i then (i, parent)
    else
      let (root, parent) := find fuel parent next
      (root, parent.set i root)

def findRoot (parent : List Nat) (i : Nat) : Nat × List Nat := find parent.length parent i

/-- The union-find forest, and the first transaction with each object. -/
structure Forest (ι : Type) where
  parent : List Nat
  firstTxnWith : ι → Option Nat

section Decidable

variable [DecidableEq ι]

/-- Transaction `i` joins the first one with the object, or is it. -/
def Forest.meet (i : Nat) (f : Forest ι) (object : ι) : Forest ι :=
  match f.firstTxnWith object with
  | some j =>
    let (a, parent) := findRoot f.parent i
    let (b, parent) := findRoot parent j
    { f with parent := parent.set a b }
  | none => { f with firstTxnWith := Function.update f.firstTxnWith object (some i) }

/-- The forest once every transaction has joined. -/
def forest (pending : List (List ι)) : Forest ι :=
  pending.zipIdx.foldl (fun f (participants, i) => participants.foldl (Forest.meet i) f)
    ⟨List.range pending.length, fun _ => none⟩

end Decidable

/-- Put `i` in the slot of its root, or in a new one. -/
def place (root i : Nat) : List (Nat × List Nat) → List (Nat × List Nat)
  | [] => [(root, [i])]
  | (r, slot) :: rest =>
    if r = root then (r, slot ++ [i]) :: rest else (r, slot) :: place root i rest

/-- The transactions by root, in order of first appearance. -/
def slots (parent : List Nat) (n : Nat) : List (List Nat) :=
  ((List.range n).foldl (fun (components, parent) i =>
    let (root, parent) := findRoot parent i
    (place root i components, parent)) (([] : List (Nat × List Nat)), parent)).1.map Prod.snd

/-- The pending transactions, by index, in components that share objects. -/
def txnComponents [DecidableEq ι] (pending : List (List ι)) : List (List Nat) :=
  slots (forest pending).parent pending.length

/-- What has been picked for the boat, and what stays behind. -/
structure Cut (ι : Type) where
  selected : List Nat := []
  objects : List ι := []
  bytes : Nat := 0
  leftover : List Nat := []

section Decidable

variable [DecidableEq ι]

/-- A component boards whole, unless the boat already has some and it would bust the cap; the sums
are numbers here, and words in `boardWords`. -/
def Cut.board (maxBoatBytes : Nat) (b : Boats ι ω) (cut : Cut ι) (component : List Nat) : Cut ι :=
  let compObjects := (component.flatMap fun i =>
    (b.pending[i]?.map AppliedTxn.participants).getD []).dedup
  let compBytes := (compObjects.map fun o => (b.dirty.lookup o).getD 0).sum
  if cut.selected ≠ [] ∧ maxBoatBytes < cut.bytes + compBytes then
    { cut with leftover := cut.leftover ++ component }
  else
    { selected := cut.selected ++ component
      objects := cut.objects ∪ compObjects
      bytes := cut.bytes + compBytes
      leftover := cut.leftover }

def cut (maxBoatBytes : Nat) (b : Boats ι ω) : Cut ι :=
  (txnComponents (b.pending.map AppliedTxn.participants)).foldl (Cut.board maxBoatBytes b) {}

/-- The waiters a cut takes along. -/
def boarding (b : Boats ι ω) (cut : Cut ι) : List ω :=
  cut.selected.filterMap fun i => b.pending[i]?.bind AppliedTxn.waiter

/-- An object is dirty no longer. -/
def clean (object : ι) (b : Boats ι ω) : Boats ι ω :=
  match b.dirty.lookup object with
  | none => b
  | some bytes => { b with
      dirty := b.dirty.erase object
      dirtyBytes := b.dirtyBytes - bytes
      saturated := b.saturated || decide (b.dirtyBytes < bytes) }

def cleanAll (objects : List ι) (b : Boats ι ω) : Boats ι ω :=
  objects.foldl (fun b o => clean o b) b

/-- What is left on shore: the leftover transactions in order, the objects of the cut no longer
dirty. -/
def ashore (b : Boats ι ω) (cut : Cut ι) : Boats ι ω :=
  cleanAll cut.objects
    { b with pending := (cut.leftover.insertionSort (· ≤ ·)).filterMap fun i => b.pending[i]? }

def unshipped (b : Boats ι ω) (object : ι) : Bool :=
  (b.dirty.lookup object).isSome || b.inflight.any fun boat => object ∈ boat

/-- An object becomes dirty at the size it has then; a dirty one keeps its entry. -/
def soil (bytes : ι → Nat) (object : ι) (b : Boats ι ω) : Boats ι ω :=
  if (b.dirty.lookup object).isSome then b
  else { b with
    dirty := b.dirty.insert object (bytes object)
    dirtyBytes := b.dirtyBytes + bytes object }

/-- An applied transaction, and the objects it changed. -/
def applied (bytes : ι → Nat) (txn : AppliedTxn ι ω) (b : Boats ι ω) : Boats ι ω :=
  let b := txn.participants.foldl (fun b o => soil bytes o b) b
  { b with pending := b.pending ++ [txn] }

/-- What is cleaned leaves the map of the dirty, and nothing else changes but the total. -/
@[simp] theorem clean_dirty (object : ι) (b : Boats ι ω) :
    (b.clean object).dirty = b.dirty.erase object := by
  unfold clean
  cases h : b.dirty.lookup object with
  | none => exact (AList.ext (List.kerase_of_notMem_keys (AList.lookup_eq_none.mp h))).symm
  | some bytes => rfl

@[simp] theorem clean_pending (object : ι) (b : Boats ι ω) :
    (b.clean object).pending = b.pending := by
  unfold clean
  split <;> rfl

@[simp] theorem clean_inflight (object : ι) (b : Boats ι ω) :
    (b.clean object).inflight = b.inflight := by
  unfold clean
  split <;> rfl

@[simp] theorem cleanAll_dirty (objects : List ι) (b : Boats ι ω) :
    (b.cleanAll objects).dirty = objects.foldl (fun dirty o => dirty.erase o) b.dirty := by
  induction objects generalizing b with
  | nil => rfl
  | cons o objects ih => rw [List.foldl_cons, ← clean_dirty, ← ih,
      cleanAll, List.foldl_cons, cleanAll]

@[simp] theorem cleanAll_pending (objects : List ι) (b : Boats ι ω) :
    (b.cleanAll objects).pending = b.pending := by
  induction objects generalizing b with
  | nil => rfl
  | cons o objects ih => exact (ih _).trans (clean_pending o b)

@[simp] theorem cleanAll_inflight (objects : List ι) (b : Boats ι ω) :
    (b.cleanAll objects).inflight = b.inflight := by
  induction objects generalizing b with
  | nil => rfl
  | cons o objects ih => exact (ih _).trans (clean_inflight o b)

@[simp] theorem ashore_pending (b : Boats ι ω) (cut : Cut ι) : (b.ashore cut).pending =
    (cut.leftover.insertionSort (· ≤ ·)).filterMap fun i => b.pending[i]? := cleanAll_pending ..

@[simp] theorem ashore_inflight (b : Boats ι ω) (cut : Cut ι) :
    (b.ashore cut).inflight = b.inflight := cleanAll_inflight ..

@[simp] theorem ashore_dirty (b : Boats ι ω) (cut : Cut ι) :
    (b.ashore cut).dirty = cut.objects.foldl (fun dirty o => dirty.erase o) b.dirty :=
  cleanAll_dirty ..

/-- What becomes dirty changes nothing else. -/
theorem soil_all (bytes : ι → Nat) (objects : List ι) (b : Boats ι ω) :
    (objects.foldl (fun b o => soil bytes o b) b).inflight = b.inflight ∧
      (objects.foldl (fun b o => soil bytes o b) b).pending = b.pending := by
  induction objects generalizing b with
  | nil => exact ⟨rfl, rfl⟩
  | cons o objects ih =>
    rw [List.foldl_cons, (ih _).1, (ih _).2, soil]
    split
    · exact ⟨rfl, rfl⟩
    · exact ⟨rfl, rfl⟩

/-- All that a revert of the seed takes along. -/
def closure (b : Boats ι ω) (seed : List ι) : List ι :=
  Groups.closure (b.pending.map AppliedTxn.participants) seed

/-- The pending transactions a revert kills. -/
def killed (b : Boats ι ω) (seed : List ι) : List (AppliedTxn ι ω) :=
  b.pending.filter fun t => Groups.Meets t.participants (b.closure seed)

/-- The boats once the closure of the seed is reverted. -/
def reverted (b : Boats ι ω) (seed : List ι) : Boats ι ω :=
  cleanAll (b.closure seed)
    { b with pending := b.pending.filter fun t => ¬ Groups.Meets t.participants (b.closure seed) }

@[simp] theorem reverted_pending (b : Boats ι ω) (seed : List ι) : (b.reverted seed).pending =
    b.pending.filter fun t => ¬ Groups.Meets t.participants (b.closure seed) := cleanAll_pending ..

@[simp] theorem reverted_inflight (b : Boats ι ω) (seed : List ι) :
    (b.reverted seed).inflight = b.inflight := cleanAll_inflight ..

@[simp] theorem reverted_dirty (b : Boats ι ω) (seed : List ι) : (b.reverted seed).dirty =
    (b.closure seed).foldl (fun dirty o => dirty.erase o) b.dirty := cleanAll_dirty ..

/-- A revert tears no transaction: one that it kills loses all its participants. -/
theorem killed_reverted (b : Boats ι ω) (seed : List ι) {txn : AppliedTxn ι ω}
    (h : txn ∈ b.killed seed) : txn.participants ⊆ b.closure seed := by
  obtain ⟨hpending, hmeets⟩ := List.mem_filter.mp h
  exact Groups.closure_closed _ seed txn.participants (List.mem_map_of_mem hpending)
    (of_decide_eq_true hmeets)

theorem mem_place {root i j : Nat} {components : List (Nat × List Nat)} :
    (∃ slot ∈ place root i components, j ∈ slot.2) ↔
      j = i ∨ ∃ slot ∈ components, j ∈ slot.2 := by
  induction components with
  | nil => simp [place]
  | cons slot rest ih =>
    unfold place
    split
    · simp only [List.mem_cons, exists_eq_or_imp, List.mem_append, List.not_mem_nil, or_false]
      constructor
      · rintro ((h | h) | h)
        · exact .inr (.inl h)
        · exact .inl h
        · exact .inr (.inr h)
      · rintro (h | h | h)
        · exact .inl (.inr h)
        · exact .inl (.inl h)
        · exact .inr h
    · simp only [List.mem_cons, exists_eq_or_imp, ih]
      exact or_left_comm

theorem mem_txnComponents {pending : List (List ι)} {i : Nat} (h : i < pending.length) :
    ∃ component ∈ txnComponents pending, i ∈ component := by
  have hfold : ∀ (is : List Nat) (components : List (Nat × List Nat)) (parent : List Nat),
      ∀ j, (j ∈ is ∨ ∃ slot ∈ components, j ∈ slot.2) →
      ∃ slot ∈ (is.foldl (fun (components, parent) i =>
        let (root, parent) := findRoot parent i
        (place root i components, parent)) (components, parent)).1, j ∈ slot.2 := by
    intro is
    induction is with
    | nil =>
      rintro components parent j (h | h)
      · cases h
      · exact h
    | cons i is ih =>
      intro components parent j h
      refine ih _ _ j ?_
      rcases h with h | h
      · rcases List.mem_cons.mp h with rfl | h
        · exact .inr (mem_place.mpr (.inl rfl))
        · exact .inl h
      · exact .inr (mem_place.mpr (.inr h))
  obtain ⟨slot, hslot, hi⟩ := hfold (List.range pending.length) [] (forest pending).parent i
    (.inl (List.mem_range.mpr h))
  exact ⟨slot.2, List.mem_map_of_mem hslot, hi⟩

theorem mem_board {limit : Nat} {b : Boats ι ω} {cut : Cut ι} {component : List Nat}
    {i : Nat} (h : i ∈ cut.selected ∨ i ∈ cut.leftover ∨ i ∈ component) :
    i ∈ (cut.board limit b component).selected ∨ i ∈ (cut.board limit b component).leftover := by
  unfold Cut.board
  dsimp only
  split
  · rcases h with h | h | h
    · exact .inl h
    · exact .inr (List.mem_append_left _ h)
    · exact .inr (List.mem_append_right _ h)
  · rcases h with h | h | h
    · exact .inl (List.mem_append_left _ h)
    · exact .inr h
    · exact .inl (List.mem_append_right _ h)

/-- A cut leaves nobody out. -/
theorem mem_cut (limit : Nat) {b : Boats ι ω} {i : Nat} (h : i < b.pending.length) :
    i ∈ (b.cut limit).selected ∨ i ∈ (b.cut limit).leftover := by
  have hfold : ∀ (components : List (List Nat)) (cut : Cut ι),
      (i ∈ cut.selected ∨ i ∈ cut.leftover ∨ ∃ component ∈ components, i ∈ component) →
      i ∈ (components.foldl (Cut.board limit b) cut).selected ∨
        i ∈ (components.foldl (Cut.board limit b) cut).leftover := by
    intro components
    induction components with
    | nil =>
      rintro cut (h | h | ⟨_, h, _⟩)
      · exact .inl h
      · exact .inr h
      · cases h
    | cons component components ih =>
      intro cut h
      refine ih _ ?_
      rcases h with h | h | ⟨c, hc, h⟩
      · exact or_assoc.mp (.inl (mem_board (.inl h)))
      · exact or_assoc.mp (.inl (mem_board (.inr (.inl h))))
      · rcases List.mem_cons.mp hc with rfl | hc
        · exact or_assoc.mp (.inl (mem_board (.inr (.inr h))))
        · exact .inr (.inr ⟨c, hc, h⟩)
  have hlen : i < (b.pending.map AppliedTxn.participants).length := by rwa [List.length_map]
  obtain ⟨component, hc, hi⟩ := mem_txnComponents hlen
  exact hfold _ _ (.inr (.inr ⟨component, hc, hi⟩))

end Decidable

end Boats

end Fafo
