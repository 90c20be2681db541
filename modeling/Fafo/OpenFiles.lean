import Fafo.DiskLedger
import Fafo.Hearing

/-! The working files of a worker's live objects, and what the node's disk ledger records of them.
-/
namespace Fafo

namespace DiskLedger

variable {π : Type} [DecidableEq π]

/-- The file is recorded as live. -/
def IsLive (l : DiskLedger π) (path : π) : Prop :=
  (l.files.lookup path).map DiskEntry.state = some .live

/-- What a call unlinks. -/
def unlinks (l : DiskLedger π) : DiskCall π → List π
  | .enforce => l.swept.2.map Sigma.fst
  | _ => []

/-- The ledger after the calls, and what they have unlinked. -/
def serve (calls : List (DiskCall π)) (l : DiskLedger π) : DiskLedger π × List π :=
  calls.foldl (fun (l, unlinked) c => (l.call c, unlinked ++ l.unlinks c)) (l, [])

end DiskLedger

/-- The file that a call is about. -/
def DiskCall.path? {π : Type} : DiskCall π → Option π
  | .setLive path _ _ => some path
  | .setCache path _ _ => some path
  | .touch path _ => some path
  | .remove path => some path
  | .enforce => none

namespace Polls

/-- What is fixed, with the size of an image and the worker's number. -/
structure Berth (ι Img Sql Row : Type) extends Site ι Img Sql Row where
  size : Img → Nat
  worker : Nat

/-- In which order a shed goes through the objects, and which files have which length. -/
structure Disk (ι : Type) where
  keys : List ι := []
  metadata : ι → Option Nat := fun _ => none

/-- A worker, the disk ledger of its node, where an object's working file has the object's name, and
the files that the last step has unlinked. -/
structure Housed (ι Img Sql Row : Type) where
  worker : State ι Img Sql Row
  ledger : DiskLedger ι
  unlinked : List ι := []

variable {ι Img Sql Row : Type} [LinearOrder ι]

namespace State

variable (site : Site ι Img Sql Row) (e : Env ι)

/-- A revert forgets the files of its closure. -/
def revertCalls (seed : List ι) (s : State ι Img Sql Row) : List (DiskCall ι) :=
  (s.boats.closure seed).map .remove

def orphanCalls (s : State ι Img Sql Row) : List (DiskCall ι) :=
  let orphaned := s.boats.dirty.keys.filter fun o => !e.owns o
  if orphaned.isEmpty then [] else s.revertCalls orphaned

/-- A boat whose snapshot fails has its files forgotten. -/
def launchCalls (s : State ι Img Sql Row) : List (DiskCall ι) :=
  if s.boats.inflight.isSome || s.boats.pending.isEmpty then []
  else if e.readable then []
  else (s.boats.cut site.maxBoatBytes).objects.map .remove

def maybeLaunchCalls (s : State ι Img Sql Row) : List (DiskCall ι) :=
  s.orphanCalls e ++ (s.revertOrphaned e).launchCalls site e

/-- The participant at which a transaction's COMMIT fails. -/
def failedCommit (t : Txn ι Sql) (s : State ι Img Sql Row) : Option Nat :=
  match t.participants.find? fun o => (s.live o).isNone with
  | some _ => none
  | none =>
    if t.readOnly then none
    else
      match writeOps site s.live t.ops with
      | .error _ => none
      | .ok _ => (e.commitError.filter fun failed => failed.1 < t.participants.length).map Prod.fst

/-- A COMMIT that fails halfway reverts; what was changed and was clean is resized. -/
def executeCalls (t : Txn ι Sql) (s : State ι Img Sql Row) : List (DiskCall ι) :=
  match s.apply site e t with
  | (.error _, _) =>
    match s.failedCommit site e t with
    | some failedAt => s.revertCalls (t.participants.take failedAt)
    | none => []
  | (.ok (_, changed), s') =>
    (changed.filter fun o => (s'.boats.dirty.lookup o).isNone).map fun o => .touch o (e.bytes o)

def runCalls (t : Txn ι Sql) (s : State ι Img Sql Row) : List (DiskCall ι) :=
  let s := s.catchUp site e t
  s.executeCalls site e t ++ (s.execute site e t).maybeLaunchCalls site e

def shipDoneCalls (s : State ι Img Sql Row) : List (DiskCall ι) :=
  match s.ship, s.boats.inflight with
  | some ⟨items, _, .committed promoted⟩, some objects =>
    let s := { s with boats := { s.boats with inflight := none }, ship := none }
    let s := s.landed site e (items.map ShipItem.object) promoted objects
    .enforce :: s.maybeLaunchCalls site e
  | some ⟨_, _, .failed _ rebased⟩, some objects =>
    let s := { s with boats := { s.boats with inflight := none }, ship := none }
    let s := s.relinquish e rebased
    s.revertCalls objects ++ .enforce :: (s.revertClosure objects).maybeLaunchCalls site e
  | _, _ => []

def shutdownCalls (s : State ι Img Sql Row) : List (DiskCall ι) :=
  { s with closing := true }.maybeLaunchCalls site e

end State

section Step

variable (site : Berth ι Img Sql Row) (e : Env ι) (d : Disk ι)

def State.activatedCalls (f : Fetch ι Img) (ok : Bool) (s : State ι Img Sql Row) :
    List (DiskCall ι) :=
  if ok && e.owns f.object && (s.live f.object).isNone then
    [.setLive f.object (site.size f.image) site.worker, .enforce]
  else []

def State.shedCalls (s : State ι Img Sql Row) : List (DiskCall ι) :=
  let shed := d.keys.filter fun o =>
    (s.live o).isSome && !(s.boats.unshipped o || e.queued o)
  if shed.isEmpty then []
  else (shed.map fun o => .setCache o (d.metadata o) site.worker) ++ [.enforce]

def State.releaseCalls (o : ι) (s : State ι Img Sql Row) : List (DiskCall ι) :=
  if s.boats.unshipped o then [] else [.setCache o (d.metadata o) site.worker]

/-- What a step of the worker calls. -/
def State.calls (s : State ι Img Sql Row) (m : Move ι Img Sql × Env ι) : List (DiskCall ι) :=
  let s := { s with outbox := [] }
  if s.done || s.panicked then []
  else
    match m.1 with
    | .run t => s.runCalls site.toSite m.2 t
    | .activated i ok =>
      match s.fetches[i]? with
      | none => []
      | some f => s.activatedCalls site m.2 f ok
    | .shipDone => s.shipDoneCalls site.toSite m.2
    | .shutdown => s.shutdownCalls site.toSite m.2
    | .shed => s.shedCalls site m.2 d
    | .release o => s.releaseCalls site d o
    | _ => []

/-- A step of the worker, or a call of another worker of the node. The others work on the files of
other objects. -/
inductive NodeMove (ι Img Sql : Type) where
  | own (m : Move ι Img Sql × Env ι) (d : Disk ι)
  | others (c : DiskCall ι)

def Housed.step (site : Berth ι Img Sql Row) (s : Housed ι Img Sql Row) :
    NodeMove ι Img Sql → Housed ι Img Sql Row
  | .own m d =>
    let (ledger, unlinked) := s.ledger.serve (s.worker.calls site d m)
    { worker := s.worker.step site.toSite m, ledger, unlinked }
  | .others c =>
    if c.path?.any fun o => (s.worker.live o).isSome then { s with unlinked := [] }
    else
      let (ledger, unlinked) := s.ledger.serve [c]
      { s with ledger, unlinked }

def Housed.boot (budget : Nat) (shelf : Shelf ι Img) : Housed ι Img Sql Row :=
  { worker := State.boot shelf, ledger := .new budget }

end Step

end Polls

end Fafo
