import Mathlib.Data.List.Basic
import Fafo.Acquire

/-! What a worker's boats commit: live images, log seqs, activations and ship tasks. -/
namespace Fafo.Snapshots

open Acquire (Outcome)

/-- A database: the transactions applied to it, in order. -/
abbrev Image := List Nat

/-- What ships of an object: its image, and the committed seq it builds on. -/
structure Item (ι : Type) where
  object : ι
  image : Image
  expectedSeq : Nat
  deriving DecidableEq

/-- A ship task: it has prewritten so many of its items, or it is done and its `ShipDone` on the
way. -/
inductive Phase where
  | sailing (prewritten : Nat)
  | done (ok : Bool)
  deriving DecidableEq

structure Ship (ι : Type) where
  items : List (Item ι)
  phase : Phase := .sailing 0

/-- An activation's fetch: what it read, once it did. -/
structure Fetch (ι : Type) where
  object : ι
  result : Option (Image × Nat) := none

/-- One worker, its ship task and fetches, and the committed log of each object: the images at seq
1, 2 and so on. For the record: the objects that were activated while the boat in flight carried
them. -/
structure State (ι : Type) where
  log : ι → List Image := fun _ => []
  objects : ι → Option Image := fun _ => none
  logSeq : ι → Option Nat := fun _ => none
  boats : Boats ι Unit := {}
  txnsExecuted : Nat := 0
  ship : Option (Ship ι) := none
  fetches : List (Fetch ι) := []
  late : ι → Bool := fun _ => false

/-- The byte cap, and which objects are system objects. -/
structure Site (ι : Type) where
  maxBoatBytes : Nat
  system : ι → Bool

/-- What the environment decides for a step: who is the owner, how `apply` goes, the sizes of live
files and whether they can be read, and which objects' logs can be folded. -/
structure Env (ι : Type) where
  owns : ι → Bool := fun _ => true
  outcome : Outcome ι := .failed
  bytes : ι → Nat := fun _ => 0
  readable : Bool := true
  folds : ι → Bool := fun _ => true

/-- The image at a seq of a log; nothing is there at seq 0. -/
def imageAt (log : List Image) (seq : Nat) : Option Image := ([] :: log)[seq]?

/-- The committed image and its seq. -/
def foldCommitted (log : List Image) : Image × Nat := (log.getLastD [], log.length)

variable {ι : Type} [DecidableEq ι]

namespace State

/-- An image becomes live, as of its seq. -/
def materialize (object : ι) (image : Image) (seq : Nat) (s : State ι) : State ι :=
  { s with
    objects := Function.update s.objects object (some image)
    logSeq := Function.update s.logSeq object (some seq) }

/-- Some objects are no longer live. -/
def purge (objects : List ι) (s : State ι) : State ι :=
  { s with
    objects := fun o => if o ∈ objects then none else s.objects o
    late := fun o => s.late o && decide (o ∉ objects) }

def revertClosure (seed : List ι) (s : State ι) : State ι :=
  let reverted := s.boats.closure seed
  let s := s.purge reverted
  { s with
    logSeq := fun o => if o ∈ reverted then none else s.logSeq o
    boats := s.boats.reverted seed }

/-- A clean object that is behind the log is folded anew. -/
def refreshIfStale (e : Env ι) (s : State ι) (object : ι) : State ι :=
  if s.boats.unshipped object || !e.folds object then s else
  let (image, seq) := foldCommitted (s.log object)
  if seq ≤ (s.logSeq object).getD 0 then s else s.materialize object image seq

/-- A clean live object is folded anew; a system object is not. -/
def refoldCleanBase (site : Site ι) (e : Env ι) (s : State ι) (object : ι) : State ι :=
  if site.system object then s else
  if s.boats.unshipped object || (s.objects object).isNone || !e.folds object then s else
  let (image, seq) := foldCommitted (s.log object)
  s.materialize object image seq

/-- Only idle, clean, unqueued objects are deactivated. -/
def shed (queued : ι → Bool) (s : State ι) : State ι :=
  { s with
    objects := fun o => if s.boats.unshipped o || queued o then s.objects o else none
    late := fun o => s.late o && (s.boats.unshipped o || queued o) }

/-- What `admit` does with the cache of an object that comes in clean. -/
def reacquire (e : Env ι) (object : ι) (s : State ι) : State ι :=
  if (s.boats.dirty.lookup object).isSome then s else
  let seq := if e.folds object then (s.log object).length else 0
  { s.purge [object] with logSeq := Function.update s.logSeq object (some seq) }

/-- Dirty objects that are owned elsewhere are not shipped. -/
def revertOrphaned (e : Env ι) (s : State ι) : State ι :=
  let orphaned := s.boats.dirty.keys.filter fun o => !e.owns o
  if orphaned.isEmpty then s else s.revertClosure orphaned

def shipItem (s : State ι) (object : ι) : Option (Item ι) :=
  (s.objects object).map fun image => ⟨object, image, (s.logSeq object).getD 0⟩

/-- Launch a boat if none is in flight and something is pending. If a live file cannot be read, all
that the boat was to carry is reverted. -/
def launch (site : Site ι) (e : Env ι) (s : State ι) : State ι :=
  if s.boats.inflight.isSome || s.boats.pending.isEmpty then s else
  let cut := s.boats.cut site.maxBoatBytes
  let ashore := s.boats.ashore cut
  if e.readable && cut.objects.all fun o => (s.objects o).isSome then
    { s with
      boats := { ashore with inflight := some cut.objects }
      ship := some { items := cut.objects.filterMap s.shipItem }
      late := fun _ => false }
  else { s.purge cut.objects with boats := ashore }

def maybeLaunch (site : Site ι) (e : Env ι) (s : State ι) : State ι :=
  (s.revertOrphaned e).launch site e

/-- Apply a transaction locally. When the COMMIT of one participant fails, it is rolled back there
and beyond, and those before it, which cannot be uncommitted, are reverted. -/
def apply (e : Env ι) (participants : List ι) (readOnly : Bool) (t : Nat) (s : State ι) :
    State ι :=
  if participants.any fun o => (s.objects o).isNone then s else
  match e.outcome with
  | .failed => s
  | .commitFailed failedAt => if readOnly then s else s.revertClosure (participants.take failedAt)
  | .ok changed =>
    let changed := participants.filter changed
    if readOnly || changed.isEmpty then s
    else
      { s with
        objects := fun o => if o ∈ changed then (s.objects o).map (· ++ [t]) else s.objects o
        boats := s.boats.applied e.bytes ⟨changed, none⟩ }

/-- Before a transaction runs, its clean participants are brought up to the log. -/
def prepare (site : Site ι) (e : Env ι) (participants : List ι) (readOnly : Bool) (s : State ι) :
    State ι :=
  if readOnly then participants.foldl (refreshIfStale e) s
  else participants.foldl (refoldCleanBase site e) s

/-- `run_and_complete`. -/
def run (site : Site ι) (e : Env ι) (participants : List ι) (readOnly : Bool) (s : State ι) :
    State ι :=
  let t := s.txnsExecuted
  let s := { s with txnsExecuted := t + 1 }
  ((s.prepare site e participants readOnly).apply e participants readOnly t).maybeLaunch site e

/-- The fetch reads the log. -/
def read (i : Nat) (s : State ι) : State ι :=
  match s.fetches[i]? with
  | none => s
  | some f =>
    { s with fetches := s.fetches.set i { f with result := some (foldCommitted (s.log f.object)) } }

/-- What a fetch brought becomes live, if the object is the worker's and not live yet. The seq comes
in 32 bits. -/
def onActivated (e : Env ι) (i : Nat) (ok : Bool) (s : State ι) : State ι :=
  match s.fetches[i]? with
  | none => s
  | some f =>
    let s := { s with fetches := s.fetches.eraseIdx i }
    match f.result with
    | some (image, seq) =>
      if ok && e.owns f.object && (s.objects f.object).isNone then
        { s.materialize f.object image (seq % 2 ^ 32) with
          late := fun o => s.late o ||
            (decide (o = f.object) && s.boats.inflight.any fun boat => o ∈ boat) }
      else s
    | none => s

/-- The next prewrite; it fails when the log has moved. -/
def prewrite (s : State ι) : State ι :=
  match s.ship with
  | some ⟨items, .sailing n⟩ =>
    match items[n]? with
    | some item =>
      let phase := if (s.log item.object).length = item.expectedSeq then .sailing (n + 1)
        else .done false
      { s with ship := some ⟨items, phase⟩ }
    | none => s
  | _ => s

/-- The commit switch, once every item is prewritten. An acknowledgement that is lost leaves the
task to believe that it failed. -/
def commit (acked : Bool) (s : State ι) : State ι :=
  match s.ship with
  | some ⟨items, .sailing n⟩ =>
    if n = items.length then
      { s with
        log := fun o =>
          match items.find? fun item => item.object = o with
          | some item => s.log o ++ [item.image]
          | none => s.log o
        ship := some ⟨items, .done acked⟩ }
    else s
  | _ => s

/-- The task fails on its way: a store fault, the lease, the content fence, a resolver. -/
def sink (s : State ι) : State ι :=
  match s.ship with
  | some ⟨items, .sailing _⟩ => { s with ship := some ⟨items, .done false⟩ }
  | _ => s

/-- `on_ship_done`. A boat that landed moves its objects' seqs on; one that sank is reverted. -/
def onShipDone (site : Site ι) (e : Env ι) (s : State ι) : State ι :=
  match s.ship, s.boats.inflight with
  | some ⟨_, .done ok⟩, some objects =>
    let s := { s with boats := { s.boats with inflight := none }, ship := none }
    let s := if ok
      then { s with
        logSeq := fun o => if o ∈ objects then (s.logSeq o).map (· + 1) else s.logSeq o }
      else s.revertClosure objects
    s.maybeLaunch site e
  | _, _ => s

end State

/-- One step. Transactions run, activations start and messages arrive in any order. -/
inductive Move (ι : Type) where
  | run (participants : List ι) (readOnly : Bool)
  | fetch (object : ι)
  | read (i : Nat)
  | activated (i : Nat) (ok : Bool)
  | recheckPolls (object : ι)
  | shed (queued : ι → Bool)
  | reacquire (object : ι)
  | maybeLaunch
  | prewrite
  | commit (acked : Bool)
  | sink
  | shipDone
  | boot

def State.step (site : Site ι) (s : State ι) (m : Move ι × Env ι) : State ι :=
  match m.1 with
  | .run participants readOnly => s.run site m.2 participants readOnly
  | .fetch object => { s with fetches := s.fetches ++ [⟨object, none⟩] }
  | .read i => s.read i
  | .activated i ok => s.onActivated m.2 i ok
  | .recheckPolls object => s.refreshIfStale m.2 object
  | .shed queued => s.shed queued
  | .reacquire object => s.reacquire m.2 object
  | .maybeLaunch => s.maybeLaunch site m.2
  | .prewrite => s.prewrite
  | .commit acked => s.commit acked
  | .sink => s.sink
  | .shipDone => s.onShipDone site m.2
  | .boot => { log := s.log }

end Fafo.Snapshots
