import Mathlib.Logic.Function.Basic
import Fafo.Api
import Fafo.Library.Groups

/-! A worker's `apply`: one transaction over the connections of its participants. -/
namespace Fafo.Apply

/-- A connection: what is committed, and what the open transaction would commit. -/
structure Conn (D : Type) where
  db : D
  txn : Option D := none
  deriving DecidableEq

/-- The connection is in no transaction, or in one that has written nothing. -/
def Conn.Pristine {D : Type} (c : Conn D) : Prop := c.txn = none ∨ c.txn = some c.db

/-- SQLite, as far as the worker relies on it. `A` are the authorizers a connection can run under.
Statements may do anything to the connection they run on, transaction control included. -/
structure Sqlite (Q D R A : Type) where
  /-- Whether a statement is read-only, if it prepares. -/
  readonly : Conn D → Q → Except String Bool
  run : Option A → Q → Conn D → Except String R × Conn D
  /-- Whether a `BEGIN` outside a transaction works. -/
  begins : Option A → Conn D → Except String Unit
  /-- Whether the deferred constraints let a transaction commit. -/
  commits : D → Except String Unit
  changeCounter : D → Option Nat
  readonly_writes_nothing : ∀ c q a, readonly c q = .ok true → c.Pristine →
    (run a q c).2.db = c.db ∧ (run a q c).2.Pristine

section Connection

variable {Q D R A : Type} (e : Sqlite Q D R A)

def Sqlite.begin (a : Option A) (c : Conn D) : Except String Unit × Conn D :=
  match c.txn with
  | some _ => (.error "cannot start a transaction within a transaction", c)
  | none =>
    match e.begins a c with
    | .error msg => (.error msg, c)
    | .ok _ => (.ok (), { c with txn := some c.db })

def Sqlite.commit (c : Conn D) : Except String Unit × Conn D :=
  match c.txn with
  | none => (.error "cannot commit - no transaction is active", c)
  | some work =>
    match e.commits work with
    | .error msg => (.error msg, c)
    | .ok _ => (.ok (), ⟨work, none⟩)

/-- The worker ignores whether a `ROLLBACK` works. -/
def Conn.rollback (c : Conn D) : Conn D := { c with txn := none }

end Connection

structure Op (O Q : Type) where
  object : O
  sql : Q

/-- A submitted transaction: its participants are sorted and deduped, and every op's object is
among them. -/
structure Call (O Q K : Type) where
  participants : List O
  ops : List (Op O Q)
  readOnly : Bool
  cap : Option K
  nodup : participants.Nodup
  declared : ∀ op ∈ ops, op.object ∈ participants

/-- The live connections, and the participants of each applied, unshipped transaction. -/
structure Worker (O D : Type) where
  objects : O → Option (Conn D)
  pendingTxns : List (List O)

variable {O Q D R K : Type} [DecidableEq O]

abbrev Objects (O D : Type) := O → Option (Conn D)

/-- Run something on the connection of an object. The source panics where there is none. -/
def onConn {X : Type} (f : Conn D → Except ApiError X × Conn D) (id : O) (objects : Objects O D) :
    Except ApiError X × Objects O D :=
  match objects id with
  | none => (.error (.internal "participant activated"), objects)
  | some c => ((f c).1, Function.update objects id (some (f c).2))

/-- One after the other, up to the first that fails. -/
def eachOf {S X Y : Type} (f : X → S → Except ApiError Y × S) :
    List X → S → Except ApiError (List Y) × S
  | [], s => (.ok [], s)
  | x :: xs, s =>
    match f x s with
    | (.error err, s) => (.error err, s)
    | (.ok y, s) =>
      match eachOf f xs s with
      | (.error err, s) => (.error err, s)
      | (.ok ys, s) => (.ok (y :: ys), s)

variable (e : Sqlite Q D R (K × O))

/-- The authorizer of a capability holder. -/
def authorizer (cap : Option K) (id : O) : Option (K × O) := cap.map fun k => (k, id)

def queryOp (op : Op O Q) : Objects O D → Except ApiError R × Objects O D :=
  onConn (fun c =>
    match e.readonly c op.sql with
    | .error msg => (.error (.badRequest msg), c)
    | .ok false => (.error (.badRequest
        "query must be read-only; use /txn or /objects/\x7bid\x7d/exec for writes"), c)
    | .ok true => ((e.run none op.sql c).1.mapError .badRequest, (e.run none op.sql c).2)) op.object

def beginOn (cap : Option K) (id : O) : Objects O D → Except ApiError Unit × Objects O D :=
  onConn (fun c => ((e.begin (authorizer cap id) c).1.mapError .internal,
    (e.begin (authorizer cap id) c).2)) id

def runOp (cap : Option K) (op : Op O Q) : Objects O D → Except ApiError R × Objects O D :=
  onConn (fun c =>
    let r := e.run (authorizer cap op.object) op.sql c
    (r.1.mapError fun msg => .badRequest s!"op failed, transaction rolled back: {msg}", r.2))
    op.object

def commitOn (id : O) : Objects O D → Except ApiError Unit × Objects O D :=
  onConn (fun c => ((e.commit c).1.mapError fun msg => .internal s!"local commit failed: {msg}",
    (e.commit c).2)) id

def rollbackAll (ids : List O) (objects : Objects O D) : Objects O D := fun id =>
  if id ∈ ids then (objects id).map Conn.rollback else objects id

/-- The commits up to the first that fails, with that one's position. -/
def commitAll : List O → Objects O D → Option (Nat × ApiError) × Objects O D
  | [], objects => (none, objects)
  | id :: ids, objects =>
    match commitOn e id objects with
    | (.error err, objects) => (some (0, err), objects)
    | (.ok _, objects) =>
      match commitAll ids objects with
      | (some (i, err), objects) => (some (i + 1, err), objects)
      | (none, objects) => (none, objects)

/-- Revert the objects, and all that the pending transactions tie to them. -/
def revertClosure (w : Worker O D) (seed : List O) : Worker O D :=
  let reverted := Groups.closure w.pendingTxns seed
  { objects := fun id => if id ∈ reverted then none else w.objects id
    pendingTxns := w.pendingTxns.filter fun t => ¬ Groups.Meets t reverted }

/-- The participants whose file's change counter moved. -/
def changedOf (participants : List O) (before after : Objects O D) : List O :=
  participants.filter fun id =>
    let counter := fun objects : Objects O D =>
      (objects id).bind fun c => e.changeCounter c.db
    counter after ≠ counter before ∨ counter after = none

def applyWrite (w : Worker O D) (call : Call O Q K) :
    Except ApiError (List R × List O) × Worker O D :=
  match eachOf (beginOn e call.cap) call.participants w.objects with
  | (.error err, objects) => (.error err, { w with objects })
  | (.ok _, objects) =>
    match eachOf (runOp e call.cap) call.ops objects with
    | (.error err, objects) =>
      (.error err, { w with objects := rollbackAll call.participants objects })
    | (.ok results, objects) =>
      match commitAll e call.participants objects with
      | (some (failedAt, err), objects) =>
        let objects := rollbackAll (call.participants.drop failedAt) objects
        (.error err, revertClosure { w with objects } (call.participants.take failedAt))
      | (none, objects) =>
        (.ok (results, changedOf e call.participants w.objects objects), { w with objects })

def apply [ToString O] (w : Worker O D) (call : Call O Q K) :
    Except ApiError (List R × List O) × Worker O D :=
  match call.participants.find? fun id => (w.objects id).isNone with
  | some missing =>
    (.error (.internal s!"participant {missing} reverted before execution; retry"), w)
  | none =>
    if call.readOnly then
      match eachOf (queryOp e) call.ops w.objects with
      | (.error err, objects) => (.error err, { w with objects })
      | (.ok results, objects) => (.ok (results, []), { w with objects })
    else applyWrite e w call

end Fafo.Apply
