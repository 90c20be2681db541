import Fafo.Boats
import Fafo.Ownership

/-! The routing hints of a node, who writes them, and the unshipped writes that `maybe_launch`
reverts on their word. -/
namespace Fafo.Hints

/-- For the record, every applied write rides under its number; `acked` says that it was answered
when it was applied. -/
structure Rider where
  txn : Nat
  acked : Bool
  deriving DecidableEq, Repr

/-- A worker's boats, and the writes on the one in flight. -/
structure Worker (ι : Type) where
  boats : Boats ι Rider := {}
  aboard : List Rider := []

/-- Why unshipped writes were lost. -/
inductive Cause where
  | orphaned
  | failedCommit
  | failedBoat
  | crash
  deriving DecidableEq, Repr

/-- For the record: the writes that were lost at once, the objects among theirs that the worker
owned, and the acknowledged ones that touch such an object. -/
structure Loss (ι : Type) where
  cause : Cause
  worker : Nat
  lost : List Nat
  mine : List ι
  acked : List Nat
  deriving DecidableEq, Repr

/-- The workers of a node: who owns what, their boats, the routing map that they share, and the
claim look-ups of activations. For the record: the acknowledged writes, those whose boat landed, and
the losses. -/
structure State (ι : Type) where
  ownership : Ownership.State ι := {}
  workers : Nat → Worker ι := fun _ => {}
  exceptions : ι → Option Nat := fun _ => none
  lookups : List (Nat × Ownership.Scan ι) := []
  count : Nat := 0
  acked : List Nat := []
  durable : List Nat := []
  losses : List (Loss ι) := []

/-- Besides the layout, the byte cap of a boat and the watermark of unshipped bytes. -/
structure Site (ι : Type) extends Ownership.Layout ι where
  maxBoatBytes : Nat
  maxUnshipped : Nat

/-- What the environment decides for a step: the fate of a checkpoint put, what `durable_claim`
answers to a boat that was rebased, sizes, and whether live files can be read. -/
structure Env (ι : Type) where
  ownership : Ownership.Env := {}
  claim : Claim := .unclaimed
  bytes : ι → Nat := fun _ => 0
  readable : Bool := true

/-- How a boat ends. -/
inductive Trip (ι : Type) where
  | landed (unpromoted : List ι)
  | sank (rebased : Option ι)
  deriving DecidableEq, Repr

inductive Move (ι : Type) where
  | own (m : Ownership.Move ι)
  | reconcile (w : Nat) (object : ι)
  | lookUp (w : Nat) (object : ι)
  | lookOn (i : Nat)
  | write (w : Nat) (changed : List ι) (optimistic : Bool)
  | commitFailed (w : Nat) (committed : List ι)
  | shipDone (w : Nat) (trip : Trip ι)
  | launch (w : Nat)
  | crash (w : Nat) (hints : ι → Option Nat)

variable {ι : Type} [DecidableEq ι]

namespace State

def ownerOf (site : Site ι) (s : State ι) (object : ι) : Nat :=
  (s.exceptions object).getD (site.defaultWorker object)

/-- The object is routed to the worker, which needs no exception if it is the default. -/
def route (site : Site ι) (object : ι) (w : Nat) (exceptions : ι → Option Nat) :
    ι → Option Nat :=
  Function.update exceptions object (if site.defaultWorker object = w then none else some w)

/-- `admit` routes to the worker itself, `release` to the one the marker names. -/
def follow (site : Site ι) (workers : Nat → Ownership.Worker ι) (exceptions : ι → Option Nat) :
    Ownership.Event ι → ι → Option Nat
  | .admitted w object _ => route site object w exceptions
  | .released w object _ =>
    match (workers w).memory.transit object with
    | some (dest, _) => route site object dest exceptions
    | none => exceptions

/-- What is unshipped is neither granted nor sent home, and only what the hint says is here goes
home. -/
def holdsBack (site : Site ι) (s : State ι) : Ownership.Move ι → Bool
  | .grant w object => (s.workers w).boats.unshipped object
  | .returnHome w object =>
    (s.workers w).boats.unshipped object || decide (s.ownerOf site object ≠ w)
  | _ => false

/-- A step of the ownership protocol, and what it writes into the routing map. -/
def own (site : Site ι) (e : Env ι) (m : Ownership.Move ι) (s : State ι) : State ι :=
  if s.holdsBack site m then s else
  let ownership := s.ownership.step site.toLayout (m, e.ownership)
  let events := ownership.history.take (ownership.history.length - s.ownership.history.length)
  { s with
    ownership
    exceptions := events.foldr (fun event x => follow site ownership.workers x event)
      s.exceptions }

/-- `advance` reconciles the hint toward `owned`, in both directions. -/
def reconcile (site : Site ι) (w : Nat) (object : ι) (s : State ι) : State ι :=
  if ((s.ownership.workers w).memory.owned object).isSome then
    if s.ownerOf site object ≠ w then
      { s with exceptions := Function.update s.exceptions object (some w) }
    else s
  else if s.exceptions object = some w then
    { s with exceptions := Function.update s.exceptions object none }
  else s

/-- The activation of an object that the worker has by default only checks the ledger first. -/
def lookUp (site : Site ι) (w : Nat) (object : ι) (s : State ι) : State ι :=
  if ((s.ownership.workers w).memory.owned object).isNone ∧ site.defaultWorker object = w ∧
      s.ownerOf site object = w then
    { s with lookups := s.lookups ++ [(w, s.ownership.scan object)] }
  else s

/-- The look-up reads on, or heals routing from what it found. -/
def lookOn (i : Nat) (s : State ι) : State ι :=
  match s.lookups[i]? with
  | none => s
  | some (w, scan) =>
    if scan.todo = [] then
      let s := { s with lookups := s.lookups.eraseIdx i }
      match scan.best with
      | some (.owned v _) | some (.transit v _) =>
        if v ≠ w ∧ v ≠ usizeMax then
          { s with exceptions := Function.update s.exceptions scan.object (some v) }
        else s
      | _ => s
    else { s with lookups := s.lookups.set i (w, s.ownership.readNext scan) }

/-- Some other worker's checkpoint claims the object at a higher generation. -/
def rivalled (s : State ι) (w : Nat) (object : ι) (generation : Nat) : Bool :=
  s.ownership.checkpoints.entries.any fun ⟨v, cp⟩ => decide (v ≠ w) &&
    ((cp.owned object).any (fun g => decide (generation < g)) ||
      (cp.transit object).any fun (dest, g) => decide (dest ≠ w ∧ generation < g))

/-- The object is in `owned`, and nobody has a higher durable claim. -/
def mine (s : State ι) (w : Nat) (object : ι) : Bool :=
  ((s.ownership.workers w).memory.owned object).any fun g => !s.rivalled w object g

def touchesMine (s : State ι) (w : Nat) (txn : AppliedTxn ι Rider) : Bool :=
  txn.participants.any (s.mine w)

/-- The record of a loss: what was pending, and what was aboard. -/
def loss (s : State ι) (cause : Cause) (w : Nat) (killed : List (AppliedTxn ι Rider))
    (aboard : List Rider) : Loss ι where
  cause
  worker := w
  lost := (aboard ++ killed.filterMap AppliedTxn.waiter).map Rider.txn
  mine := (killed.flatMap AppliedTxn.participants).filter (s.mine w)
  acked := ((killed.filter (s.touchesMine w)).filterMap AppliedTxn.waiter).filterMap fun r =>
    if r.acked then some r.txn else none

def setWorker (s : State ι) (w : Nat) (worker : Worker ι) : State ι :=
  { s with workers := Function.update s.workers w worker }

/-- Revert the closure of the seed; `aboard` goes down with it. -/
def revert (cause : Cause) (w : Nat) (seed : List ι) (aboard : List Rider) (s : State ι) :
    State ι :=
  let worker := s.workers w
  { s.setWorker w { worker with boats := worker.boats.reverted seed } with
    losses := s.loss cause w (worker.boats.killed seed) aboard :: s.losses }

/-- The dirty objects that the hints say are elsewhere. -/
def orphaned (site : Site ι) (s : State ι) (w : Nat) : List ι :=
  (s.workers w).boats.dirty.keys.filter fun o => s.ownerOf site o ≠ w

def revertOrphaned (site : Site ι) (w : Nat) (s : State ι) : State ι :=
  if (s.orphaned site w).isEmpty then s else s.revert .orphaned w (s.orphaned site w) []

/-- If a live file cannot be read, all that the boat was to carry is lost. -/
def launch (site : Site ι) (readable : Bool) (w : Nat) (s : State ι) : State ι :=
  let worker := s.workers w
  if worker.boats.inflight.isSome || worker.boats.pending.isEmpty then s else
  let cut := worker.boats.cut site.maxBoatBytes
  let boats := worker.boats.ashore cut
  let riders := worker.boats.boarding cut
  if readable then s.setWorker w ⟨{ boats with inflight := some cut.objects }, riders⟩
  else { s.setWorker w ⟨boats, []⟩ with losses := s.loss .failedBoat w [] riders :: s.losses }

def maybeLaunch (site : Site ι) (readable : Bool) (w : Nat) (s : State ι) : State ι :=
  (s.revertOrphaned site w).launch site readable w

/-- A write transaction is applied to objects that the worker owns, or has by default; the hint may
have changed since it acquired them. Below the watermark an optimistic one is answered right now. -/
def write (site : Site ι) (e : Env ι) (w : Nat) (changed : List ι) (optimistic : Bool)
    (s : State ι) : State ι :=
  let worker := s.workers w
  let acquired := changed.all fun o => ((s.ownership.workers w).memory.owned o).isSome ||
    decide (site.defaultWorker o = w)
  if changed.isEmpty || !acquired then s else
  let soiled := changed.foldl (fun b o => Boats.soil e.bytes o b) worker.boats
  let early := optimistic && decide (soiled.dirtyBytes ≤ site.maxUnshipped)
  { s.setWorker w { worker with
      boats := worker.boats.applied e.bytes ⟨changed, some ⟨s.count, early⟩⟩ } with
    count := s.count + 1
    acked := if early then s.count :: s.acked else s.acked }

/-- The ledger names another worker at our generation or above: stop racing it. -/
def relinquish (claim : Claim) (w : Nat) (object : ι) (s : State ι) : State ι :=
  let holder := s.ownership.workers w
  match claim with
  | .owned v g | .transit v g =>
    if v ≠ w ∧ v ≠ usizeMax ∧ (holder.memory.owned object).getD 0 ≤ g then
      { s.setWorker w { s.workers w with boats := (s.workers w).boats.clean object } with
        ownership := s.ownership.update w { holder with
          memory := { holder.memory with owned := Function.update holder.memory.owned object none }
          metas := Function.update holder.metas object none }
        exceptions := Function.update s.exceptions object (some v) }
    else s
  | .unclaimed => s

/-- `on_ship_done`, up to its `maybe_launch`. -/
def shipDone (e : Env ι) (w : Nat) (trip : Trip ι) (s : State ι) : State ι :=
  let worker := s.workers w
  match worker.boats.inflight with
  | none => s
  | some objects =>
    let s := s.setWorker w ⟨{ worker.boats with inflight := none }, []⟩
    match trip with
    | .landed unpromoted =>
      let boats := (s.workers w).boats
      { s.setWorker w ⟨if unpromoted.isEmpty then boats
          else boats.applied e.bytes ⟨unpromoted, none⟩, []⟩ with
        durable := worker.aboard.map Rider.txn ++ s.durable }
    | .sank rebased =>
      (match rebased with
        | some object => s.relinquish e.claim w object
        | none => s).revert .failedBoat w objects worker.aboard

/-- The worker starts anew from its checkpoint, with the hints that boot makes of all of them. -/
def crash (w : Nat) (hints : ι → Option Nat) (s : State ι) : State ι :=
  let worker := s.workers w
  { s.setWorker w {} with
    ownership := s.ownership.update w
      { memory := (s.ownership.checkpoints.lookup w).getD ⟨fun _ => none, fun _ => none⟩ }
    exceptions := hints
    lookups := s.lookups.filter fun lookup => lookup.1 ≠ w
    losses := s.loss .crash w worker.boats.pending worker.aboard :: s.losses }

/-- What a step does before it launches, and for which worker it launches. -/
def handle (site : Site ι) (e : Env ι) (s : State ι) : Move ι → State ι × Option Nat
  | .own m => (s.own site e m, none)
  | .reconcile w object => (s.reconcile site w object, none)
  | .lookUp w object => (s.lookUp site w object, none)
  | .lookOn i => (s.lookOn i, none)
  | .write w changed optimistic => (s.write site e w changed optimistic, none)
  | .commitFailed w committed => (s.revert .failedCommit w committed [], none)
  | .shipDone w trip => (s.shipDone e w trip, some w)
  | .launch w => (s, some w)
  | .crash w hints => (s.crash w hints, none)

/-- One step. A handler may be overtaken at its awaits: a transaction that was applied launches in a
step of its own. -/
def step (site : Site ι) (s : State ι) (m : Move ι × Env ι) : State ι :=
  match s.handle site m.2 m.1 with
  | (s, none) => s
  | (s, some w) => s.maybeLaunch site m.2.readable w

end State

end Fafo.Hints
