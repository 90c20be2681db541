import Mathlib.Data.List.Lex
import Mathlib.Data.Char
import Fafo.AppendOnly
import Fafo.Quiescent

/-! What the object listing makes of the log engine's keys. -/
namespace Fafo.Listing

open Interleave

variable {β δ : Type}

/-- An object id, or a transaction's. -/
abbrev Name := List Char

/-- `objects/` -/
def objectsPrefix : Name := ['o', 'b', 'j', 'e', 'c', 't', 's', '/']

/-- `.db` -/
def legacySuffix : Name := ['.', 'd', 'b']

/-- `txns/` -/
def txnsPrefix : Name := ['t', 'x', 'n', 's', '/']

/-- `staging/` -/
def stagingPrefix : Name := ['s', 't', 'a', 'g', 'i', 'n', 'g', '/']

/-- A seq in decimal, with zeros to a width of 20. -/
def padded (seq : Nat) : Name := (Nat.toDigits 10 seq).leftpad 20 '0'

/-- The text of a key. -/
def keyText : Key Name Name → Name
  | .log id seq => objectsPrefix ++ id ++ ['.', 'L', '.'] ++ padded seq
  | .base id seq => objectsPrefix ++ id ++ ['.', 'B', '.'] ++ padded seq
  | .outcome txn => txnsPrefix ++ txn ++ ['.', 'O']
  | .staging txn id => stagingPrefix ++ txn ++ ['/'] ++ id ++ ['.', 's', 'n', 'a', 'p']

/-- What lies between the prefix and the suffix of an object's legacy key. -/
def listedId (key : Name) : Option Name :=
  (objectsPrefix.isPrefixOf? key).bind fun rest => legacySuffix.isSuffixOf? rest

/-- `list_objects`, for a caller that is root. -/
def listObjects {N : Type} : LogTry Name Name β δ N (List Name) :=
  (Store.list fun k => objectsPrefix.isPrefixOf (keyText k)).attempt fun keys =>
    .ret (.ok (keys.filterMap fun k => listedId (keyText k)))

/-- The ids that users may choose. -/
def validId (id : Name) : Bool :=
  !id.isEmpty && decide (id.length ≤ 64) && id.head? ≠ some '_' &&
    id.all fun c => c.isAlphanum || c == '-' || c == '_'

def HasCommitted (w : LogWorld Name Name β δ) (id : Name) : Prop :=
  ∃ seq e, entryAt w id seq = some e ∧ verdict w e.txn = some true

/-- Some boat carries the object. -/
def Shipped (jobs : Name → Job Name β δ) (id : Name) : Prop :=
  ∃ txn items, jobs txn = .ship items ∧ id ∈ items.map ShipItem.object

/-- Every user object with a committed entry is listed, and nothing is that no boat carries. -/
structure Lists (jobs : Name → Job Name β δ) (w : LogWorld Name Name β δ) (ids : List Name) :
    Prop where
  complete : ∀ id, validId id = true → HasCommitted w id → id ∈ ids
  honest : ∀ id ∈ ids, Shipped jobs id

/-- The last character of a text that is not empty. -/
theorem getLast?_append_of_ne_nil {xs ys : Name} (h : ys ≠ []) :
    (xs ++ ys).getLast? = ys.getLast? := by
  rw [List.getLast?_append]
  cases hlast : ys.getLast? with
  | none => exact absurd (List.getLast?_eq_none_iff.mp hlast) h
  | some c => rfl

theorem getLast?_padded (seq : Nat) : ∃ c, (padded seq).getLast? = some c ∧ c.isDigit := by
  obtain ⟨zeros, hpadded⟩ : Nat.toDigits 10 seq <:+ padded seq := List.leftpad_suffix
  have hne : Nat.toDigits 10 seq ≠ [] := Nat.toDigits_ne_nil
  rw [← hpadded, getLast?_append_of_ne_nil hne, List.getLast?_eq_some_getLast hne]
  exact ⟨_, rfl, Nat.isDigit_of_mem_toDigits (by decide) (by decide) (List.getLast_mem hne)⟩

/-- Each key ends in a digit, or in the last letter of a suffix of its own. -/
theorem getLast?_keyText (k : Key Name Name) :
    ∃ c, (keyText k).getLast? = some c ∧ c ≠ 'b' := by
  have hdigit {c : Char} (h : c.isDigit) : c ≠ 'b' := by
    rintro rfl
    exact absurd h (by decide)
  have hpadded (before : Name) (seq : Nat) :
      ∃ c, (before ++ padded seq).getLast? = some c ∧ c ≠ 'b' := by
    obtain ⟨c, hc, hisDigit⟩ := getLast?_padded seq
    have hne : padded seq ≠ [] := by
      intro hnil
      rw [hnil] at hc
      cases hc
    exact ⟨c, by rw [getLast?_append_of_ne_nil hne, hc], hdigit hisDigit⟩
  cases k with
  | log id seq => exact hpadded _ seq
  | base id seq => exact hpadded _ seq
  | outcome txn =>
    exact ⟨'O', getLast?_append_of_ne_nil (List.cons_ne_nil _ _), by decide⟩
  | staging txn id =>
    exact ⟨'p', getLast?_append_of_ne_nil (List.cons_ne_nil _ _), by decide⟩

theorem listedId_keyText (k : Key Name Name) : listedId (keyText k) = none := by
  rw [Option.eq_none_iff_forall_ne_some]
  intro id h
  obtain ⟨rest, hrest, hsuffix⟩ := Option.bind_eq_some_iff.mp h
  have hkey : objectsPrefix ++ rest = keyText k := List.append_eq_of_isPrefixOf?_eq_some hrest
  have hdb : id ++ legacySuffix = rest := List.append_eq_of_isSuffixOf?_eq_some hsuffix
  obtain ⟨c, hc, hne⟩ := getLast?_keyText k
  have hb : (objectsPrefix ++ id ++ legacySuffix).getLast? = some 'b' :=
    getLast?_append_of_ne_nil (List.cons_ne_nil _ _)
  rw [← hkey, ← hdb, ← List.append_assoc, hb] at hc
  cases hc
  exact hne rfl

theorem filterMap_listedId (keys : List (Key Name Name)) :
    (keys.filterMap fun k => listedId (keyText k)) = [] := by
  rw [List.filterMap_eq_nil_iff]
  intro k _
  exact listedId_keyText k

/-- Whatever the log engine has stored, the listing is empty. -/
theorem listObjects_nil {env : Nat → Env} {n : Nat} {w : LogWorld Name Name β δ} {ids : List Name}
    (h : (ends env listObjects n w).answer = .ok ids) : ids = [] := by
  rw [listObjects, ends_list] at h
  split_ifs at h
  · rw [filterMap_listedId] at h
    cases h
    rfl

/-- The listing of any store that boats, compactions and the clearing of entries lead to is right
just when no user object has a committed entry. -/
theorem listing_iff (Y : Yard β δ) (jobs : Name → Job Name β δ) (moves : List (Name × Env))
    (env : Nat → Env) (n : Nat) {ids : List Name}
    (h : (ends env listObjects n ((startJobs Y jobs).run node moves).shared).answer = .ok ids) :
    Lists jobs ((startJobs Y jobs).run node moves).shared ids ↔
      ∀ id, validId id = true → ¬ HasCommitted ((startJobs Y jobs).run node moves).shared id := by
  cases listObjects_nil h
  constructor
  · intro hlists id hvalid hcommitted
    cases hlists.complete id hvalid hcommitted
  · intro hnone
    exact ⟨fun id hvalid hcommitted => absurd hcommitted (hnone id hvalid),
      fun id hin => by cases hin⟩

/-- One boat, which carries a first snapshot of object `a`. -/
def oneBoat (txn : Name) : Job Name Nat Nat :=
  if txn = ['t'] then .ship [⟨['a'], .snapshot 5, 0⟩] else .read []

/-- Its gate lets it through, and the store never fails. -/
def sailed : List (Name × Env) :=
  (['t'], {}) :: (['t'], { verdict := false }) :: List.replicate 24 (['t'], {})

theorem listing_iff_sailed :
    Lists oneBoat ((startJobs counterYard oneBoat).run node sailed).shared [] ↔
      ∀ id, validId id = true →
        ¬ HasCommitted ((startJobs counterYard oneBoat).run node sailed).shared id :=
  listing_iff counterYard oneBoat sailed (fun _ => {}) 0 rfl

/-- The boat has committed, and its object is not listed. -/
theorem committed_object_unlisted :
    (ends (fun _ => {}) listObjects 0
        ((startJobs counterYard oneBoat).run node sailed).shared).answer = .ok [] ∧
      validId ['a'] = true ∧
      HasCommitted ((startJobs counterYard oneBoat).run node sailed).shared ['a'] ∧
      ¬ Lists oneBoat ((startJobs counterYard oneBoat).run node sailed).shared [] := by
  have hcommitted : HasCommitted ((startJobs counterYard oneBoat).run node sailed).shared ['a'] :=
    ⟨1, ⟨['t'], 0, .snapshot 5⟩, rfl, rfl⟩
  refine ⟨rfl, rfl, hcommitted, fun hlists => ?_⟩
  cases hlists.complete ['a'] rfl hcommitted

end Fafo.Listing
