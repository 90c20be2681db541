import Fafo.Boats
import Fafo.Ownership

/-! Ordered acquisition: queues, parked transactions, takes and grants between workers. -/
namespace Fafo.Acquire

open Ownership (Meta TransferMeta known hold renounce)

/-- An entry of an object's queue: a transaction of the worker, or a take of another one with the
channel its answer goes to. -/
inductive Entry where
  | txn (t : Nat)
  | take (taker resp : Nat)
  deriving DecidableEq, Repr

/-- Participants as submitted: sorted and deduped. -/
abbrev Participants (ι : Type) [LT ι] := {participants : List ι // participants.Pairwise (· < ·)}

/-- A parked transaction holds the head of its first `acquired` participants' queues. -/
structure Parked (ι : Type) [LT ι] where
  participants : Participants ι
  readOnly : Bool
  acquired : Nat := 0
  taking : Bool := false
  activating : Bool := false

/-- The queues of a worker and the transactions parked on them. -/
structure Locks (ι : Type) [LT ι] where
  queues : ι → List Entry := fun _ => []
  parked : Nat → Option (Parked ι) := fun _ => none
  nextTxn : Nat := 0

/-- A worker. `ready` is the stack of its pump, while it pumps. A worker that is `done` with
closing, or has panicked, handles nothing more. -/
structure Worker (ι : Type) [LT ι] extends Locks ι where
  memory : Checkpoint ι := ⟨fun _ => none, fun _ => none⟩
  metas : ι → Option Meta := fun _ => none
  live : ι → Bool := fun _ => false
  boats : Boats ι Unit := {}
  needsService : List ι := []
  ready : Option (List Nat) := none
  closing : Bool := false
  done : Bool := false
  panicked : Bool := false

inductive TakenResult where
  | got (tm : TransferMeta)
  | alreadyLocal
  | failed
  deriving DecidableEq, Repr

inductive Answer where
  | got (tm : TransferMeta)
  | notMine (hint : Option Nat)
  | failed
  deriving DecidableEq, Repr

/-- Where a take task stands: about to choose whom to ask, waiting for an answer, or through, its
`Taken` on the way. -/
inductive Phase where
  | choosing (chase : Option Nat) (attempt : Nat)
  | awaiting (owner resp attempt : Nat)
  | done (giver : Nat) (result : TakenResult)
  deriving DecidableEq, Repr

structure TakeTask (ι : Type) where
  worker : Nat
  txn : Nat
  object : ι
  phase : Phase
  deriving DecidableEq

/-- The blob fetch of an activation. -/
structure Fetch (ι : Type) where
  worker : Nat
  txn : Nat
  object : ι
  deriving DecidableEq

/-- A `Take` on its way. -/
structure Ask (ι : Type) where
  dest : Nat
  object : ι
  taker : Nat
  resp : Nat
  deriving DecidableEq

structure State (ι : Type) [LT ι] where
  workers : Nat → Worker ι := fun _ => {}
  tasks : List (TakeTask ι) := []
  fetches : List (Fetch ι) := []
  asks : List (Ask ι) := []
  answers : Nat → Option Answer := fun _ => none
  deeds : List (Ownership.Deed ι) := []
  nextResp : Nat := 0

/-- What is fixed: each object's hash-default worker, the hysteresis, the engine, the byte cap. -/
structure Site (ι : Type) extends Ownership.Layout ι where
  logPrimary : Bool
  maxBoatBytes : Nat

/-- How `apply` goes on participants that are all live. -/
inductive Outcome (ι : Type) where
  | failed
  | commitFailed (failedAt : Nat)
  | ok (changed : ι → Bool)

/-- What the environment decides for a step: the routing hints, what `durable_claim` answers, the
fate of each handoff's checkpoint, whether a channel still has its receiver, the clock and the load,
how `apply` goes, sizes, and whether live files can be read and re-folded. -/
structure Env (ι : Type) where
  owner : ι → Nat := fun _ => 0
  claim : ι → Claim := fun _ => .unclaimed
  fault : ι → Fault := fun _ => .none
  delivered : Nat → Bool := fun _ => true
  now : Nat := 0
  crowded : Bool := false
  outcome : Outcome ι := .failed
  bytes : ι → Nat := fun _ => 0
  readable : Bool := true
  refreshed : ι → Bool := fun _ => false

def takeRetries : Nat := 8

variable {ι : Type} [LinearOrder ι]

def Parked.frontier (p : Parked ι) : Option ι := p.participants.val[p.acquired]?

/-- The transactions among some entries. -/
def txns (entries : List Entry) : List Nat :=
  entries.filterMap fun
    | .txn t => some t
    | .take _ _ => none

namespace State

def update (s : State ι) (w : Nat) (worker : Worker ι) : State ι :=
  { s with workers := Function.update s.workers w worker }

def setQueue (s : State ι) (w : Nat) (object : ι) (queue : List Entry) : State ι :=
  s.update w { s.workers w with queues := Function.update (s.workers w).queues object queue }

def setParked (s : State ι) (w t : Nat) (p : Option (Parked ι)) : State ι :=
  s.update w { s.workers w with parked := Function.update (s.workers w).parked t p }

def setReady (s : State ι) (w : Nat) (ready : Option (List Nat)) : State ι :=
  s.update w { s.workers w with ready }

def answer (s : State ι) (resp : Nat) (a : Answer) : State ι :=
  { s with answers := Function.update s.answers resp (some a) }

/-- Answer every take among the entries. -/
def bounce (s : State ι) (a : Answer) (entries : List Entry) : State ι :=
  entries.foldl (fun s entry =>
    match entry with
    | .txn _ => s
    | .take _ resp => s.answer resp a) s

/-- One object after the other; what becomes ready is collected. -/
def gather (f : ι → State ι → List Nat × State ι) : List ι → State ι → List Nat × State ι
  | [], s => ([], s)
  | object :: objects, s =>
    let (ready, s) := f object s
    let (more, s) := gather f objects s
    (ready ++ more, s)

/-- Renounce an object, if its checkpoint can be written. -/
def release (site : Site ι) (e : Env ι) (s : State ι) (w : Nat) (object : ι) (dest : Nat) :
    Option TransferMeta × State ι :=
  let worker := s.workers w
  let generation := (known worker.memory object).getD 0 + 1
  if e.fault object = .none then
    (some (Ownership.departure site.hysteresis w (worker.metas object) generation e.now),
      s.update w { worker with
        memory := renounce worker.memory object dest generation
        metas := Function.update worker.metas object none
        live := Function.update worker.live object false })
  else (none, s)

/-- Whether a deed is accepted: newer than all the worker knows, or what the ledger still says. -/
def accepts (site : Site ι) (e : Env ι) (s : State ι) (w : Nat) (object : ι) (tm : TransferMeta) :
    Bool :=
  match Ownership.gate (s.workers w).memory object tm.generation with
  | .accept => true
  | .refuse => false
  | .reconcile => site.logPrimary &&
      decide (Ownership.State.Confirms (e.claim object) w tm.generation)

/-- The object is the worker's. The log engine drops what it has cached of a clean one. -/
def install (site : Site ι) (e : Env ι) (s : State ι) (w : Nat) (object : ι) (tm : TransferMeta) :
    State ι :=
  let worker := s.workers w
  s.update w { worker with
    memory := hold worker.memory object tm.generation
    metas := Function.update worker.metas object
      (some (Ownership.arrival w tm ⟨e.fault object, e.now, e.crowded⟩))
    live := if site.logPrimary && (worker.boats.dirty.lookup object).isNone
      then Function.update worker.live object false else worker.live }

/-- `admit`. -/
def admitDeed (site : Site ι) (e : Env ι) (s : State ι) (w : Nat) (object : ι)
    (tm : TransferMeta) : Bool × State ι :=
  if s.accepts site e w object tm then (true, s.install site e w object tm) else (false, s)

/-- The hysteresis return of a displaced object with an idle queue. -/
def maybeReturnHome (site : Site ι) (e : Env ι) (w : Nat) (object : ι) (s : State ι) : State ι :=
  let worker := s.workers w
  if worker.boats.unshipped object then s else
  match (worker.metas object).bind Meta.returnTo with
  | none => s
  | some home =>
    if home = w ∨ e.owner object ≠ w then s else
    match s.release site e w object home with
    | (none, s) => s
    | (some tm, s) =>
      { s with deeds := ⟨home, object, { tm with settled := false, home }⟩ :: s.deeds }

/-- Grant the take at the head: transfer the object, and bounce everyone left behind. An object
that cannot be renounced stays, and so do its transactions; so it does when nobody waits for the
deed any more, which is then reclaimed at the next generation. -/
def grantFront (site : Site ι) (e : Env ι) (w : Nat) (object : ι) (s : State ι) :
    List Nat × State ι :=
  match (s.workers w).queues object with
  | .take taker resp :: rest =>
    match s.release site e w object taker with
    | (some tm, s) =>
      if e.delivered resp then
        (txns rest, ((s.setQueue w object []).answer resp (.got tm)).bounce
          (.notMine (some taker)) rest)
      else
        let s := (s.admitDeed site e w object { tm with generation := tm.generation + 1 }).2
        ((txns rest).take 1, (s.setQueue w object ((txns rest).map .txn)).bounce .failed rest)
    | (none, s) =>
      ((txns rest).take 1,
        ((s.setQueue w object ((txns rest).map .txn)).answer resp .failed).bounce .failed rest)
  | _ => ([], s)

/-- Serve the head of an object's queue. A take waits until the object is shipped. -/
def serviceFront (site : Site ι) (e : Env ι) (w : Nat) (object : ι) (s : State ι) :
    List Nat × State ι :=
  match (s.workers w).queues object with
  | [] => ([], s)
  | .txn t :: _ => ([t], s)
  | .take _ _ :: _ =>
    if (s.workers w).boats.unshipped object then ([], s) else s.grantFront site e w object

/-- A failed transaction gives up its place in one queue. -/
def leave (site : Site ι) (e : Env ι) (w t : Nat) (object : ι) (s : State ι) :
    List Nat × State ι :=
  match (s.workers w).queues object with
  | [] => ([], s)
  | queue =>
    let rest := queue.filter fun entry => entry ≠ .txn t
    let s := s.setQueue w object rest
    if rest.isEmpty then ([], s) else s.serviceFront site e w object

def failTxn (site : Site ι) (e : Env ι) (w t : Nat) (s : State ι) : List Nat × State ι :=
  match (s.workers w).parked t with
  | none => ([], s)
  | some p => (s.setParked w t none).gather (leave site e w t) p.participants.val

/-- Revert the closure of the seed. -/
def revertClosure (w : Nat) (seed : List ι) (s : State ι) : State ι :=
  let worker := s.workers w
  let reverted := worker.boats.closure seed
  s.update w { worker with
    boats := worker.boats.reverted seed
    live := fun o => worker.live o && decide (o ∉ reverted)
    metas := fun o => if o ∈ reverted then none else worker.metas o
    needsService := worker.needsService ++ reverted.filter fun o => worker.queues o ≠ [] }

/-- Dirty objects that are owned elsewhere are not shipped. -/
def revertOrphaned (e : Env ι) (w : Nat) (s : State ι) : State ι :=
  let orphaned := (s.workers w).boats.dirty.keys.filter fun o => e.owner o ≠ w
  if orphaned.isEmpty then s else s.revertClosure w orphaned

/-- Launch a boat if none is in flight and something is pending. If a live file cannot be read, all
that the boat was to carry is reverted; a dirty object is expected to be live. -/
def launch (site : Site ι) (e : Env ι) (w : Nat) (s : State ι) : State ι :=
  let worker := s.workers w
  if worker.boats.inflight.isSome || worker.boats.pending.isEmpty then s else
  let cut := worker.boats.cut site.maxBoatBytes
  let boats := worker.boats.ashore cut
  if e.readable then
    if cut.objects.all worker.live then
      s.update w { worker with boats := { boats with inflight := some cut.objects } }
    else s.update w { worker with panicked := true }
  else s.update w { worker with
    boats
    live := fun o => worker.live o && decide (o ∉ cut.objects)
    metas := fun o => if o ∈ cut.objects then none else worker.metas o
    needsService := worker.needsService ++ cut.objects.filter fun o => worker.queues o ≠ [] }

def maybeLaunch (site : Site ι) (e : Env ι) (w : Nat) (s : State ι) : State ι :=
  (s.revertOrphaned e w).launch site e w

/-- `maybe_finish_closing`: nothing is in flight or pending. -/
def finishClosing (w : Nat) (s : State ι) : State ι :=
  let worker := s.workers w
  if worker.closing && worker.boats.inflight.isNone && worker.boats.pending.isEmpty then
    s.update w { worker with closing := false, done := true }
  else s

/-- Re-fold a clean object's live connection. -/
def refreshIfStale (e : Env ι) (w : Nat) (object : ι) (s : State ι) : State ι :=
  let worker := s.workers w
  if worker.boats.unshipped object || !e.refreshed object then s
  else s.update w { worker with live := Function.update worker.live object true }

/-- Apply a transaction locally; what it changed awaits the next boat. -/
def apply (e : Env ι) (w : Nat) (p : Parked ι) (s : State ι) : State ι :=
  let worker := s.workers w
  if p.participants.val.any fun o => !worker.live o then s else
  match e.outcome with
  | .failed => s
  | .commitFailed failedAt =>
    if p.readOnly then s else s.revertClosure w (p.participants.val.take failedAt)
  | .ok changed =>
    let changed := p.participants.val.filter changed
    if p.readOnly || changed.isEmpty then s
    else s.update w { worker with boats := worker.boats.applied e.bytes ⟨changed, none⟩ }

/-- A transaction that ran gives up the head of one queue. -/
def pop (site : Site ι) (e : Env ι) (w : Nat) (object : ι) (s : State ι) : List Nat × State ι :=
  match (s.workers w).queues object with
  | [] => ([], s)
  | _ :: rest =>
    let s := s.setQueue w object rest
    if rest.isEmpty then ([], s.maybeReturnHome site e w object)
    else s.serviceFront site e w object

/-- `run_and_complete` up to where it gives up its heads. -/
def perform (e : Env ι) (w t : Nat) (p : Parked ι) (s : State ι) : State ι :=
  let s := s.setParked w t none
  let worker := s.workers w
  let s := s.update w { worker with
    metas := fun o =>
      if o ∈ p.participants.val then some ((worker.metas o).getD ⟨e.now, none, none⟩)
      else worker.metas o }
  let s := if p.readOnly then p.participants.val.foldl (fun s o => s.refreshIfStale e w o) s else s
  s.apply e w p

/-- `run_and_complete` up to its `maybe_launch`. -/
def execute (site : Site ι) (e : Env ι) (w t : Nat) (p : Parked ι) (s : State ι) :
    List Nat × State ι :=
  (s.perform e w t p).gather (pop site e w) p.participants.val

/-- `run_and_complete`, for a transaction that holds every head. -/
def runAndComplete (site : Site ι) (e : Env ι) (w t : Nat) (p : Parked ι) (s : State ι) :
    List Nat × State ι :=
  let (ready, s) := s.execute site e w t p
  (ready, s.maybeLaunch site e w)

/-- Local truth first: what is in `owned` is ours. A hint can only make a hash-default worker an
implicit owner. -/
def isOwner (site : Site ι) (e : Env ι) (s : State ι) (w : Nat) (object : ι) : Bool :=
  ((s.workers w).memory.owned object).isSome ||
    decide (e.owner object = w ∧ site.defaultWorker object = w)

/-- The transaction stands in the queue of the object. -/
def enqueue (w t : Nat) (object : ι) (s : State ι) : State ι :=
  let queue := (s.workers w).queues object
  if .txn t ∈ queue then s else s.setQueue w object (queue ++ [.txn t])

/-- One pass of the loop in `advance`, and whether the transaction goes on. -/
def acquire (site : Site ι) (e : Env ι) (w t : Nat) (p : Parked ι) (object : ι) (s : State ι) :
    Bool × State ι :=
  if s.isOwner site e w object then
    let s := s.enqueue w t object
    if ((s.workers w).queues object).head? ≠ some (.txn t) then (false, s)
    else if (s.workers w).live object then
      (true, s.setParked w t (some { p with acquired := p.acquired + 1 }))
    else if p.activating then (false, s)
    else (false, { s.setParked w t (some { p with activating := true }) with
      fetches := ⟨w, t, object⟩ :: s.fetches })
  else if p.taking then (false, s)
  else (false, { s.setParked w t (some { p with taking := true }) with
    tasks := s.tasks ++ [⟨w, t, object, .choosing none 0⟩] })

/-- Drive the transaction on top of the pump's stack one step further. -/
def advance (site : Site ι) (e : Env ι) (w t : Nat) (below : List Nat) (s : State ι) : State ι :=
  match (s.workers w).parked t with
  | none => s.setReady w (some below)
  | some p =>
    match p.frontier with
    | none =>
      let (unblocked, s) := s.runAndComplete site e w t p
      s.setReady w (some (below ++ unblocked))
    | some object =>
      let (goes, s) := s.acquire site e w t p object
      s.setReady w (some (if goes then below ++ [t] else below))

/-- One pass of `pump`: serve what is flagged, else drive the top of the stack, else stop. -/
def pump (site : Site ι) (e : Env ι) (w : Nat) (s : State ι) : State ι :=
  let worker := s.workers w
  match worker.ready with
  | none => s
  | some ready =>
    if worker.panicked then s
    else if worker.needsService.isEmpty then
      match ready.getLast? with
      | none => s.setReady w none
      | some t => s.advance site e w t ready.dropLast
    else
      let flagged := worker.needsService.dedup.insertionSort (· ≤ ·)
      let (more, s) := (s.update w { worker with needsService := [] }).gather
        (serviceFront site e w) flagged
      s.setReady w (some (ready ++ more))

def submit (w : Nat) (participants : Participants ι) (readOnly : Bool) (s : State ι) : State ι :=
  let t := (s.workers w).nextTxn
  let s := s.setParked w t (some { participants, readOnly })
  (s.update w { s.workers w with nextTxn := t + 1 }).setReady w (some [t])

/-- A transaction of the worker is taking the object. -/
def takingIt (s : State ι) (w : Nat) (object : ι) : Bool :=
  (List.range (s.workers w).nextTxn).any fun t => ((s.workers w).parked t).any fun p =>
    p.taking ∧ p.frontier = some object

/-- The generation at which a `Take` makes the worker admit an object it does not own. -/
def adoptGeneration (site : Site ι) (w : Nat) (object : ι) : Claim → Option Nat
  | .owned v g => if v = w then some g else none
  | .transit v g => if v = w then some g else none
  | .unclaimed => if site.defaultWorker object = w then some 1 else none

/-- Where a refused taker is sent. -/
def notMineHint (e : Env ι) (w : Nat) (object : ι) : Claim → Option Nat
  | .owned v _ | .transit v _ =>
    if v ≠ usizeMax then some v else (some (e.owner object)).filter (· ≠ w)
  | .unclaimed => (some (e.owner object)).filter (· ≠ w)

/-- The tenure of an object that was here all along does not start anew. -/
def resetArrival (w : Nat) (object : ι) (s : State ι) : State ι :=
  let worker := s.workers w
  s.update w { worker with
    metas := Function.update worker.metas object
      ((worker.metas object).map fun m => { m with arrivedAt := 0 }) }

/-- What a `Take` of an object that is not owned comes to: its admission, or a refusal. -/
def adoptForTake (site : Site ι) (e : Env ι) (w : Nat) (object : ι) (s : State ι) :
    Bool × State ι :=
  match adoptGeneration site w object (e.claim object) with
  | none => (false, s)
  | some generation =>
    match s.admitDeed site e w object ⟨false, w, none, generation⟩, e.claim object with
    | (true, s), .transit _ _ => (true, s)
    | (true, s), _ => (true, s.resetArrival w object)
    | (false, s), _ => (false, s)

/-- Queue a take; at the head of the queue it is served at once. -/
def queueTake (site : Site ι) (e : Env ι) (a : Ask ι) (s : State ι) : State ι :=
  let queue := (s.workers a.dest).queues a.object ++ [.take a.taker a.resp]
  let s := s.setQueue a.dest a.object queue
  if queue.length = 1 then
    let (ready, s) := s.serviceFront site e a.dest a.object
    s.setReady a.dest (some ready)
  else s

def onTake (site : Site ι) (e : Env ι) (a : Ask ι) (s : State ι) : State ι :=
  if ((s.workers a.dest).memory.owned a.object).isSome then s.queueTake site e a
  else if s.takingIt a.dest a.object then s.answer a.resp .failed
  else
    match s.adoptForTake site e a.dest a.object with
    | (true, s) => s.queueTake site e a
    | (false, s) => s.answer a.resp (.notMine (notMineHint e a.dest a.object (e.claim a.object)))

/-- Fail the transaction, and drive what that unblocks. -/
def failAndPump (site : Site ι) (e : Env ι) (w t : Nat) (s : State ι) : State ι :=
  let (ready, s) := s.failTxn site e w t
  s.setReady w (some ready)

/-- `Taken`. A deed for an object that is owned by now is a duplicate; one that is refused fails the
transaction. -/
def onTaken (site : Site ι) (e : Env ι) (w t : Nat) (object : ι) (result : TakenResult)
    (s : State ι) : State ι :=
  match (s.workers w).parked t with
  | none => s
  | some p =>
    let s := s.setParked w t (some { p with taking := false })
    match result with
    | .alreadyLocal => s.setReady w (some [t])
    | .failed => s.failAndPump site e w t
    | .got tm =>
      match if ((s.workers w).memory.owned object).isSome then (true, s)
        else s.admitDeed site e w object tm with
      | (false, s) => s.failAndPump site e w t
      | (true, s) =>
        let s := if (s.workers w).queues object = [] then s.setQueue w object [.txn t] else s
        s.setReady w (some [t])

/-- What a fetch brought is live, if the object is still the worker's. -/
def activate (site : Site ι) (e : Env ι) (f : Fetch ι) (ok : Bool) (s : State ι) : State ι :=
  if ok then
    let worker := s.workers f.worker
    let s := if e.owner f.object = f.worker
      then s.update f.worker { worker with live := Function.update worker.live f.object true }
      else s
    s.setReady f.worker (some [f.txn])
  else s.failAndPump site e f.worker f.txn

def onActivated (site : Site ι) (e : Env ι) (f : Fetch ι) (ok : Bool) (s : State ι) : State ι :=
  match (s.workers f.worker).parked f.txn with
  | none => s.activate site e f ok
  | some p =>
    (s.setParked f.worker f.txn (some { p with activating := false })).activate site e f ok

/-- The ledger names another worker at our generation or above: stop racing it. -/
def relinquish (e : Env ι) (w : Nat) (object : ι) (s : State ι) : State ι :=
  let worker := s.workers w
  match e.claim object with
  | .owned v g | .transit v g =>
    if v ≠ w ∧ v ≠ usizeMax ∧ (worker.memory.owned object).getD 0 ≤ g then
      s.update w { worker with
        memory := { worker.memory with owned := Function.update worker.memory.owned object none }
        metas := Function.update worker.metas object none
        live := Function.update worker.live object false
        boats := worker.boats.clean object }
    else s
  | .unclaimed => s

/-- An object of the boat that landed or sank is served, or goes home. -/
def settle (site : Site ι) (e : Env ι) (w : Nat) (object : ι) (s : State ι) :
    List Nat × State ι :=
  if (s.workers w).queues object ≠ [] then s.serviceFront site e w object
  else if ((s.workers w).boats.dirty.lookup object).isSome then ([], s)
  else ([], s.maybeReturnHome site e w object)

/-- The object a boat was rebased on, if any, is given up to a newer owner. -/
def reconcile (e : Env ι) (w : Nat) (rebased : Option ι) (s : State ι) : State ι :=
  match rebased with
  | some object => s.relinquish e w object
  | none => s

/-- A boat that landed re-dirties what was not promoted; one that sank is reverted. -/
def landed (e : Env ι) (w : Nat) (ok : Bool) (unpromoted objects : List ι) (s : State ι) :
    State ι :=
  let worker := s.workers w
  if ok then
    if unpromoted.isEmpty then s
    else s.update w { worker with boats := worker.boats.applied e.bytes ⟨unpromoted, none⟩ }
  else s.revertClosure w objects

/-- `on_ship_done` up to its `maybe_launch`. -/
def arrive (e : Env ι) (w : Nat) (ok : Bool) (unpromoted : List ι) (rebased : Option ι)
    (objects : List ι) (s : State ι) : State ι :=
  let worker := s.workers w
  let s := s.update w { worker with boats := { worker.boats with inflight := none } }
  (s.reconcile e w rebased).landed e w ok unpromoted objects

def onShipDone (site : Site ι) (e : Env ι) (w : Nat) (ok : Bool) (unpromoted : List ι)
    (rebased : Option ι) (s : State ι) : State ι :=
  match (s.workers w).boats.inflight with
  | none => s
  | some objects =>
    let s := (s.arrive e w ok unpromoted rebased objects).maybeLaunch site e w
    if (s.workers w).panicked then s else
    let (ready, s) := s.gather (settle site e w) objects
    (s.finishClosing w).setReady w (some ready)

/-- What `ship_task` reports of a boat: only its own objects are unpromoted or rebased, and only if
it landed or sank, respectively. -/
def reports (s : State ι) (w : Nat) (ok : Bool) (unpromoted : List ι) (rebased : Option ι) : Bool :=
  match (s.workers w).boats.inflight with
  | none => false
  | some objects =>
    if ok then unpromoted.all (fun o => o ∈ objects) && rebased.isNone
    else unpromoted.isEmpty && rebased.all fun o => o ∈ objects

/-- `Shutdown`. What is dirty ships first. -/
def shutdown (site : Site ι) (e : Env ι) (w : Nat) (s : State ι) : State ι :=
  let s := (s.update w { s.workers w with closing := true }).maybeLaunch site e w
  if (s.workers w).panicked then s else s.finishClosing w

/-- Deactivate what is idle, clean and unqueued. -/
def shed (w : Nat) (s : State ι) : State ι :=
  let worker := s.workers w
  s.update w { worker with
    live := fun o =>
      worker.live o && (worker.boats.unshipped o || decide (worker.queues o ≠ [])) }

def setPhase (s : State ι) (i : Nat) (k : TakeTask ι) (phase : Phase) : State ι :=
  { s with tasks := s.tasks.set i { k with phase } }

/-- Knock on a door; one's own is open. -/
def knock (s : State ι) (i : Nat) (k : TakeTask ι) (attempt owner : Nat) : State ι :=
  if owner = k.worker then s.setPhase i k (.done k.worker .alreadyLocal)
  else { s.setPhase i k (.awaiting owner s.nextResp attempt) with
    asks := s.asks ++ [⟨owner, k.object, k.worker, s.nextResp⟩]
    nextResp := s.nextResp + 1 }

/-- The next thing `take_task` does. A peer's word that the object is the worker's own is checked
against the ledger. -/
def taskStep (e : Env ι) (s : State ι) (i : Nat) (k : TakeTask ι) : State ι :=
  match k.phase with
  | .done _ _ => s
  | .choosing chase attempt =>
    if takeRetries ≤ attempt then s.setPhase i k (.done k.worker .failed) else
    match chase with
    | none => s.knock i k attempt (e.owner k.object)
    | some h =>
      if h ≠ k.worker then s.knock i k attempt h else
      match e.claim k.object with
      | .owned v g | .transit v g =>
        if v = k.worker ∧ v ≠ usizeMax then
          { s.setPhase i k (.done k.worker .alreadyLocal) with
            deeds := ⟨k.worker, k.object, ⟨false, k.worker, none, g⟩⟩ :: s.deeds }
        else if v ≠ usizeMax then s.knock i k attempt v
        else s.knock i k attempt (e.owner k.object)
      | .unclaimed => s.knock i k attempt (e.owner k.object)
  | .awaiting owner resp attempt =>
    match s.answers resp with
    | none => s
    | some (.got tm) => s.setPhase i k (.done owner (.got tm))
    | some (.notMine hint) => s.setPhase i k (.choosing hint (attempt + 1))
    | some .failed => s.setPhase i k (.choosing none (attempt + 1))

/-- The attempt fails on its way there or back. -/
def loseAnswer (s : State ι) (i : Nat) (k : TakeTask ι) : State ι :=
  match k.phase with
  | .awaiting _ _ attempt => s.setPhase i k (.choosing none (attempt + 1))
  | _ => s

/-- A worker starts anew; its tasks and fetches went down with it. -/
def boot (w : Nat) (memory : Checkpoint ι) (s : State ι) : State ι :=
  { s.update w { memory } with
    tasks := s.tasks.filter fun k => k.worker ≠ w
    fetches := s.fetches.filter fun f => f.worker ≠ w }

end State

/-- One step. Messages arrive in any order or never. -/
inductive Move (ι : Type) [LT ι] where
  | submit (w : Nat) (participants : Participants ι) (readOnly : Bool)
  | take (i : Nat)
  | adopt (i : Nat)
  | taken (i : Nat)
  | activated (i : Nat) (ok : Bool)
  | shipDone (w : Nat) (ok : Bool) (unpromoted : List ι) (rebased : Option ι)
  | shutdown (w : Nat)
  | shed (w : Nat)
  | recheckPolls (w : Nat) (object : ι)
  | pump (w : Nat)
  | task (i : Nat)
  | loseAnswer (i : Nat)
  | boot (w : Nat) (memory : Checkpoint ι)

/-- A worker takes a message only when it does not pump, and as long as it runs. -/
def State.whenIdle (s : State ι) (w : Nat) (next : State ι) : State ι :=
  match (s.workers w).ready with
  | none => if (s.workers w).done || (s.workers w).panicked then s else next
  | some _ => s

def State.step (site : Site ι) (s : State ι) (m : Move ι × Env ι) : State ι :=
  match m.1 with
  | .submit w participants readOnly => s.whenIdle w (s.submit w participants readOnly)
  | .take i =>
    match s.asks[i]? with
    | none => s
    | some a => s.whenIdle a.dest ({ s with asks := s.asks.eraseIdx i }.onTake site m.2 a)
  | .adopt i =>
    match s.deeds[i]? with
    | none => s
    | some d => s.whenIdle d.dest
        ({ s with deeds := s.deeds.eraseIdx i }.admitDeed site m.2 d.dest d.object d.tm).2
  | .taken i =>
    match s.tasks[i]? with
    | some ⟨w, t, object, .done _ result⟩ => s.whenIdle w
        ({ s with tasks := s.tasks.eraseIdx i }.onTaken site m.2 w t object result)
    | _ => s
  | .activated i ok =>
    match s.fetches[i]? with
    | none => s
    | some f => s.whenIdle f.worker
        ({ s with fetches := s.fetches.eraseIdx i }.onActivated site m.2 f ok)
  | .shipDone w ok unpromoted rebased =>
    if s.reports w ok unpromoted rebased then
      s.whenIdle w (s.onShipDone site m.2 w ok unpromoted rebased)
    else s
  | .shutdown w => s.whenIdle w (s.shutdown site m.2 w)
  | .shed w => s.whenIdle w (s.shed w)
  | .recheckPolls w object => s.whenIdle w (s.refreshIfStale m.2 w object)
  | .pump w => s.pump site m.2 w
  | .task i =>
    match s.tasks[i]? with
    | none => s
    | some k => s.taskStep m.2 i k
  | .loseAnswer i =>
    match s.tasks[i]? with
    | none => s
    | some k => s.loseAnswer i k
  | .boot w memory => s.boot w memory

end Fafo.Acquire
