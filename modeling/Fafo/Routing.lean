import Mathlib.Data.List.MinMax
import Mathlib.Data.List.Sort
import Mathlib.Data.Prod.Lex
import Fafo.Api
import Fafo.Boot

/-! Where a transaction goes: the checks on it, the worker that is to run it, and what a forward
to another node comes back with. -/
namespace Fafo.Submission

structure TxnResponse where
  txnId : String
  deriving DecidableEq, Repr

abbrev Outcome := Except ApiError TxnResponse

structure Op where
  object : String
  sql : String
  deriving DecidableEq, Repr

structure Txn where
  ids : List String := []
  ops : List Op := []
  readOnly : Bool := false
  optimistic : Bool := false
  deriving DecidableEq, Repr

def validId (id : String) : Bool :=
  id ≠ "" && decide (id.utf8ByteSize ≤ 64) && !"_".toList.isPrefixOf id.toList &&
    id.toList.all fun c => c.isAlphanum || c == '-' || c == '_'

/-- Sorted ids without repetition, with every op's object among them. -/
def validateTxn (objects : List String) (ops : List Op) : Except ApiError (List String) :=
  if objects = [] then .error (.badRequest "declare at least one object") else
  let ids := (objects.insertionSort (· ≤ ·)).dedup
  match ids.find? fun id => !validId id with
  | some id => .error (.badRequest ("invalid object id: " ++ id.quote))
  | none =>
    match ops.find? fun op => decide (op.object ∉ ids) with
    | some op => .error (.badRequest ("op touches undeclared object " ++ op.object.quote ++
        " — declare it in `objects`"))
    | none => .ok ids

structure Routing where
  logical : Nat
  blocks : Nat
  exceptions : Blobs String Nat
  addrs : Blobs Nat String

def defaultWorker (object : String) (logical : Nat) : Nat :=
  (Boot.fnv1a object.toUTF8.toList).toNat % logical

/-- `block_of`, as long as the product is a word (`LeaseBlocks.blockOf_eq`). -/
def blockOf (worker logical blocks : Nat) : Nat := worker * blocks / logical

/-- The first worker of a block: `div_ceil`. -/
def blockStart (block logical blocks : Nat) : Nat := (block * logical + blocks - 1) / blocks

namespace Routing

def block (r : Routing) (worker : Nat) : Nat := blockOf worker r.logical r.blocks

def addrOfWorker (r : Routing) (worker : Nat) : Option String := r.addrs.lookup (r.block worker)

def ownerOf (r : Routing) (object : String) : Nat :=
  (r.exceptions.lookup object).getD (defaultWorker object r.logical)

def exceptionLoad (r : Routing) (worker : Nat) : Nat :=
  r.exceptions.entries.countP fun e => e.2 = worker

/-- The owner of most participants; ties go to the less loaded worker, then to the lowest. -/
def pluralityTarget (r : Routing) (ids : List String) : Option Nat :=
  (ids.map r.ownerOf).argmin fun w =>
    toLex (OrderDual.toDual ((ids.map r.ownerOf).count w), toLex (r.exceptionLoad w, w))

end Routing

/-- What `/internal/rpc` answers. -/
inductive Response where
  | ok
  | txn (result : Outcome)
  | take
  | err (e : String)

/-- `forward_txn`: from the transport's result to the submission's. -/
def forwardTxn (base : String) : Except String Response → Outcome
  | .ok (.txn result) => result
  | .ok (.err e) => .error (.internal e)
  | .ok _ => .error (.internal "rpc protocol mismatch")
  | .error e => .error (.internal ("rpc to " ++ base ++ " failed: " ++ e))

end Fafo.Submission
