import Mathlib.Data.List.AList
import Fafo.Library.Interleave

/-! The blob store: one atomic operation at a time, any of which may be lost. -/
namespace Fafo

open Interleave

/-- What an `anyhow` error can stand for on the paths modelled here. -/
inductive Error where
  | unavailable
  | badDelta
  | racingCompaction
  deriving DecidableEq, Repr

/-- Durable truth: the blobs by key. -/
abbrev Blobs (K V : Type) := AList fun _ : K => V

/-- The operations every `BlobStore` has; `list` takes the test for its prefix. -/
inductive StoreOp (K V : Type) where
  | get (key : K)
  | put (key : K) (bytes : V)
  | delete (key : K)
  | list (pre : K → Bool)
  | create (key : K) (bytes : V)

namespace StoreOp

variable {K V : Type}

def Value : StoreOp K V → Type
  | get _ => Option V
  | put _ _ => Unit
  | delete _ => Unit
  | list _ => List K
  | create _ _ => Bool

variable [DecidableEq K]

def value (s : Blobs K V) : (o : StoreOp K V) → o.Value
  | get key => s.lookup key
  | put _ _ => ()
  | delete _ => ()
  | list pre => s.keys.filter pre
  | create key _ => (s.lookup key).isNone

/-- `create` leaves an existing blob alone; everything else does as it says. -/
def effect (s : Blobs K V) : StoreOp K V → Blobs K V
  | get _ => s
  | put key bytes => s.insert key bytes
  | delete key => s.erase key
  | list _ => s
  | create key bytes => if (s.lookup key).isNone then s.insert key bytes else s

end StoreOp

/-- What happens to one operation: it works, it fails without effect, or it takes effect and
reports an error all the same (the acknowledgement was lost). -/
inductive Fault where
  | none
  | failed
  | lost
  deriving DecidableEq, Repr

/-- Questions a task asks its node. -/
inductive Query where
  | leasesHeld
  | fenced
  deriving DecidableEq, Repr

/-- What a task does: store operations, questions to its node, a look at the clock, and notes
that record a value it has computed. -/
inductive NodeOp (K V N : Type) where
  | store (o : StoreOp K V)
  | ask (q : Query)
  | now
  | note (n : N)

def NodeOp.Answer {K V N : Type} : NodeOp K V N → Type
  | store o => Except Error o.Value
  | ask _ => Bool
  | now => Nat
  | note _ => Unit

/-- The operation leaves the store and the notes alone. -/
def NodeOp.IsRead {K V N : Type} : NodeOp K V N → Prop
  | store (.get _) | store (.list _) => True
  | _ => False

abbrev nodeSig (K V N : Type) : Signature := ⟨NodeOp K V N, NodeOp.Answer⟩

/-- The environment's choices for one operation. -/
structure Env where
  fault : Fault := .none
  verdict : Bool := true
  time : Nat := 0
  deriving DecidableEq, Repr

/-- The store and the notes taken so far. -/
structure World (K V N : Type) where
  blobs : Blobs K V := ∅
  notes : List N := []

section Machine

variable {K V N : Type} [DecidableEq K]

def World.get (w : World K V N) (key : K) : Option V := w.blobs.lookup key

def World.effect (w : World K V N) (o : StoreOp K V) : World K V N :=
  { w with blobs := o.effect w.blobs }

def exec (e : Env) : (o : NodeOp K V N) → World K V N → o.Answer × World K V N
  | .store o, w =>
    match e.fault with
    | .none => (.ok (o.value w.blobs), w.effect o)
    | .failed => (.error .unavailable, w)
    | .lost => (.error .unavailable, w.effect o)
  | .ask _, w => (e.verdict, w)
  | .now, w => (e.time, w)
  | .note n, w => ((), { w with notes := n :: w.notes })

def node : Machine (nodeSig K V N) (World K V N) Env := ⟨exec⟩

theorem exec_read (e : Env) {o : NodeOp K V N} (ho : o.IsRead) (w : World K V N) :
    (exec e o w).2 = w := by
  obtain (_ | _ | _ | _ | _) | _ | _ | _ := o
  all_goals first
    | exact ho.elim
    | unfold exec
      split <;> rfl

theorem exec_works {e : Env} (h : e.fault = .none) (o : StoreOp K V) (w : World K V N) :
    exec e (.store o) w = (.ok (o.value w.blobs), w.effect o) := by
  simp only [exec, h]

theorem exec_errs {e : Env} (h : e.fault ≠ .none) (o : StoreOp K V) (w : World K V N) :
    (exec e (.store o) w).1 = .error .unavailable := by
  cases hf : e.fault with
  | none => exact absurd hf h
  | failed =>
    simp only [exec, hf]
    rfl
  | lost =>
    simp only [exec, hf]
    rfl

theorem exec_lands {e : Env} (h : e.fault ≠ .failed) (o : StoreOp K V) (w : World K V N) :
    (exec e (.store o) w).2 = w.effect o := by
  cases hf : e.fault with
  | failed => exact absurd hf h
  | none => simp only [exec, hf]
  | lost => simp only [exec, hf]

/-- An operation takes effect or does nothing. -/
theorem exec_state (e : Env) (o : StoreOp K V) (w : World K V N) :
    (exec e (.store o) w).2 = w ∨ (exec e (.store o) w).2 = w.effect o := by
  by_cases h : e.fault = .failed
  · exact .inl (by simp only [exec, h])
  · exact .inr (exec_lands h o w)

/-- The node on a store that never fails. -/
def reliable : Machine (nodeSig K V N) (World K V N) Env :=
  ⟨fun e => exec { e with fault := .none }⟩

end Machine

section Programs

variable {K V N : Type}

abbrev Task (K V N α : Type) := Prog (nodeSig K V N) α

/-- A task whose errors are propagated. -/
abbrev Try (K V N α : Type) := Task K V N (Except Error α)

namespace Store

def get (key : K) : Try K V N (Option V) :=
  .call (NodeOp.store (.get key)) .ret

def put (key : K) (bytes : V) : Try K V N Unit :=
  .call (NodeOp.store (.put key bytes)) .ret

def delete (key : K) : Try K V N Unit :=
  .call (NodeOp.store (.delete key)) .ret

def list (pre : K → Bool) : Try K V N (List K) :=
  .call (NodeOp.store (.list pre)) .ret

def create (key : K) (bytes : V) : Try K V N Bool :=
  .call (NodeOp.store (.create key bytes)) .ret

end Store

def ask (q : Query) : Task K V N Bool := .call (NodeOp.ask q) .ret
def now : Task K V N Nat := .call NodeOp.now .ret
def note (n : N) : Task K V N Unit := .call (NodeOp.note n) .ret

end Programs

section Lookup

variable {K V N : Type} [DecidableEq K] (w : World K V N)

@[simp] theorem World.get_get (key k : K) : (w.effect (.get key)).get k = w.get k := rfl

@[simp] theorem World.get_list (pre : K → Bool) (k : K) :
    (w.effect (.list pre)).get k = w.get k := rfl

theorem World.get_delete (key k : K) :
    (w.effect (.delete key)).get k = if k = key then none else w.get k := by
  change (w.blobs.erase key).lookup k = _
  by_cases h : k = key
  · subst h
    simp
  · simp [h, AList.lookup_erase_ne h, World.get]

theorem World.get_put (key k : K) (v : V) :
    (w.effect (.put key v)).get k = if k = key then some v else w.get k := by
  change (w.blobs.insert key v).lookup k = _
  by_cases h : k = key
  · subst h
    simp
  · simp [h, AList.lookup_insert_ne h, World.get]

theorem World.effect_create (key : K) (v : V) :
    w.effect (.create key v) = if w.get key = none then w.effect (.put key v) else w := by
  unfold World.get World.effect StoreOp.effect
  simp only [Option.isNone_iff_eq_none]
  split <;> rfl

theorem World.get_create (key k : K) (v : V) :
    (w.effect (.create key v)).get k =
      if k = key ∧ w.get key = none then some v else w.get k := by
  rw [World.effect_create]
  by_cases hw : w.get key = none <;> simp [hw, World.get_put]

@[simp] theorem World.notes_effect (o : StoreOp K V) : (w.effect o).notes = w.notes := rfl

theorem mem_list_iff (pre : K → Bool) (k : K) :
    k ∈ w.blobs.keys.filter pre ↔ (w.get k).isSome ∧ pre k = true := by
  simp [World.get, AList.lookup_isSome, AList.mem_keys]

end Lookup

end Fafo
