import Mathlib.Logic.Function.Basic
import Fafo.Claims

/-! Ownership between workers: takes, grants, adoptions, and the checkpoints they rest on. -/
namespace Fafo.Ownership

structure VisitInfo where
  worker : Nat
  count : Nat
  last : Nat
  deriving DecidableEq, Repr

/-- What a grant or an adopt hands over. -/
structure TransferMeta where
  settled : Bool
  home : Nat
  visit : Option VisitInfo
  generation : Nat
  deriving DecidableEq, Repr

structure Meta where
  arrivedAt : Nat
  returnTo : Option Nat
  visit : Option VisitInfo
  deriving DecidableEq, Repr

def rehomeAfter : Nat := 3
def visitWindow : Nat := 1000

/-- Each object's hash-default worker, and the node's hysteresis. -/
structure Layout (ι : Type) where
  defaultWorker : ι → Nat
  hysteresis : Nat

/-- A `durable_claim` under way: the listed checkpoints still to be read, and the best claim so
far. -/
structure Scan (ι : Type) where
  object : ι
  todo : List Nat
  best : Option Claim

/-- What a handler does once `admitDeed` accepts: a take is queued, and an object that was here all
along does not count as arrived. -/
inductive After where
  | nothing
  | queueTake (taker : Nat) (resetArrival : Bool)
  deriving DecidableEq, Repr

/-- The await at which a worker's handler stands. -/
inductive Await (ι : Type) where
  | idle
  | claiming (taker : Nat) (scan : Scan ι)
  | reconciling (tm : TransferMeta) (after : After) (scan : Scan ι)
  | granting (object : ι) (taker : Nat) (tm : TransferMeta)

/-- A worker: `owned` and `transit` as its checkpoint has them, its metas, the takers queued for
each object it owns, the objects its parked transactions are taking, and its handler. -/
structure Worker (ι : Type) where
  memory : Checkpoint ι := ⟨fun _ => none, fun _ => none⟩
  metas : ι → Option Meta := fun _ => none
  queues : ι → List Nat := fun _ => []
  taking : List ι := []
  await : Await ι := .idle

/-- A deed on its way to its new owner, as the reply to a take or as an `Adopt`. -/
structure Deed (ι : Type) where
  dest : Nat
  object : ι
  tm : TransferMeta

/-- A take task that was told its own worker is the owner, and asks the ledger. -/
structure Chase (ι : Type) where
  worker : Nat
  scan : Scan ι

/-- For the record: what a worker admitted and released. -/
inductive Event (ι : Type) where
  | admitted (worker : Nat) (object : ι) (generation : Nat)
  | released (worker : Nat) (object : ι) (generation : Nat)
  deriving DecidableEq, Repr

structure State (ι : Type) where
  workers : Nat → Worker ι := fun _ => {}
  checkpoints : Blobs Nat (Checkpoint ι) := ∅
  deeds : List (Deed ι) := []
  chases : List (Chase ι) := []
  history : List (Event ι) := []

/-- What the environment decides for a step: the fate of its checkpoint put, the clock, and whether
the worker is crowded. -/
structure Env where
  fault : Fault := .none
  now : Nat := 0
  crowded : Bool := false
  deriving DecidableEq, Repr

section Memory

variable {ι : Type} [DecidableEq ι]

/-- The highest generation a worker knows of an object it holds or released. -/
def known (memory : Checkpoint ι) (object : ι) : Option Nat :=
  match memory.owned object, memory.transit object with
  | none, none => none
  | some g, none => some g
  | none, some (_, g) => some g
  | some g, some (_, g') => some (max g g')

def hold (memory : Checkpoint ι) (object : ι) (generation : Nat) : Checkpoint ι :=
  { owned := Function.update memory.owned object (some generation)
    transit := Function.update memory.transit object none }

def renounce (memory : Checkpoint ι) (object : ι) (dest generation : Nat) : Checkpoint ι :=
  { owned := Function.update memory.owned object none
    transit := Function.update memory.transit object (some (dest, generation)) }

/-- What the generation gate of `admitDeed` says of a deed. -/
inductive Gate where
  | accept
  | refuse
  | reconcile
  deriving DecidableEq, Repr

def gate (memory : Checkpoint ι) (object : ι) (generation : Nat) : Gate :=
  match known memory object with
  | none => .accept
  | some cur =>
    if cur < generation then .accept
    else if memory.owned object = none then .reconcile else .refuse

/-- The hysteresis policy for an arriving object. -/
def arrival (worker : Nat) (tm : TransferMeta) (e : Env) : Meta :=
  if tm.settled then
    let visits := match tm.visit with
      | some v => if v.worker = worker ∧ v.last ≤ e.now ∧ e.now - v.last ≤ visitWindow
          then v.count + 1 else 1
      | none => 1
    if visits < rehomeAfter ∨ e.crowded then ⟨e.now, some tm.home, some ⟨worker, visits, e.now⟩⟩
    else ⟨e.now, none, none⟩
  else ⟨e.now, none, tm.visit⟩

/-- What a departing object takes along. -/
def departure (hysteresis worker : Nat) (m : Option Meta) (generation now : Nat) : TransferMeta :=
  match m with
  | some m =>
    { settled := m.returnTo.isSome || (decide (0 < hysteresis) &&
        decide (hysteresis ≤ now - m.arrivedAt))
      home := m.returnTo.getD worker
      visit := m.visit
      generation }
  | none => { settled := decide (0 < hysteresis), home := worker, visit := none, generation }

end Memory

section Handlers

variable {ι : Type} [DecidableEq ι]

/-- The worker once an object is admitted, and what its handler does then. -/
def Worker.installed (worker : Worker ι) (w : Nat) (object : ι) (tm : TransferMeta) (after : After)
    (e : Env) : Worker ι :=
  let m := arrival w tm e
  let worker := { worker with
    memory := hold worker.memory object tm.generation
    metas := Function.update worker.metas object (some m)
    await := .idle }
  match after with
  | .nothing => worker
  | .queueTake taker resetArrival =>
    { worker with
      metas := Function.update worker.metas object
        (some (if resetArrival then { m with arrivedAt := 0 } else m))
      queues := Function.update worker.queues object (worker.queues object ++ [taker]) }

namespace State

def update (s : State ι) (w : Nat) (worker : Worker ι) : State ι :=
  { s with workers := Function.update s.workers w worker }

def goTo (s : State ι) (w : Nat) (await : Await ι) : State ι :=
  s.update w { s.workers w with await }

/-- A put of the worker's checkpoint takes effect unless it fails for good. -/
def checkpoint (s : State ι) (w : Nat) (fault : Fault) : State ι :=
  if fault = .failed then s
  else { s with checkpoints := s.checkpoints.insert w (s.workers w).memory }

/-- `durable_claim` begins with a listing. -/
def scan (s : State ι) (object : ι) : Scan ι := ⟨object, s.checkpoints.keys, none⟩

/-- The next read of a claim scan. -/
def readNext (s : State ι) (scan : Scan ι) : Scan ι :=
  match scan.todo with
  | [] => scan
  | w :: todo =>
    { scan with
      todo
      best := match s.checkpoints.lookup w with
        | some cp => (cp.claims scan.object w).foldl Claim.consider scan.best
        | none => scan.best }

/-- `admitDeed` past its gate: the object is the worker's; the add-side checkpoint is
best-effort. -/
def install (s : State ι) (w : Nat) (object : ι) (tm : TransferMeta) (after : After) (e : Env) :
    State ι :=
  let s := (s.update w ((s.workers w).installed w object tm after e)).checkpoint w e.fault
  { s with history := .admitted w object tm.generation :: s.history }

def admitDeed (s : State ι) (w : Nat) (object : ι) (tm : TransferMeta) (after : After) (e : Env) :
    State ι :=
  match gate (s.workers w).memory object tm.generation with
  | .accept => s.install w object tm after e
  | .refuse => s.goTo w .idle
  | .reconcile => s.goTo w (.reconciling tm after (s.scan object))

/-- A `Take` arrives. Unless the object is owned it is admitted first, on the durable claim; while
a transaction here is taking the object itself, the taker is bounced. -/
def take (s : State ι) (w : Nat) (object : ι) (taker : Nat) : State ι :=
  let worker := s.workers w
  if (worker.memory.owned object).isSome then
    s.update w { worker with
      queues := Function.update worker.queues object (worker.queues object ++ [taker]) }
  else if object ∈ worker.taking then s
  else s.goTo w (.claiming taker (s.scan object))

/-- A transaction parks on a take of the object, -/
def park (s : State ι) (w : Nat) (object : ι) : State ι :=
  s.update w { s.workers w with taking := object :: (s.workers w).taking }

/-- and hears how it went. -/
def unpark (s : State ι) (w : Nat) (object : ι) : State ι :=
  s.update w { s.workers w with taking := (s.workers w).taking.erase object }

/-- What the `Take` handler makes of the claim. -/
def onClaim (layout : Layout ι) (s : State ι) (w : Nat) (object : ι) (taker : Nat) (claim : Claim)
    (e : Env) : State ι :=
  let deed : Nat → TransferMeta := fun generation => ⟨false, w, none, generation⟩
  match claim with
  | .owned v g =>
    if v = w then s.admitDeed w object (deed g) (.queueTake taker true) e else s.goTo w .idle
  | .transit v g =>
    if v = w then s.admitDeed w object (deed g) (.queueTake taker false) e else s.goTo w .idle
  | .unclaimed =>
    if layout.defaultWorker object = w then s.admitDeed w object (deed 1) (.queueTake taker true) e
    else s.goTo w .idle

/-- The ledger still names this worker at exactly the deed's generation. -/
def Confirms (claim : Claim) (w generation : Nat) : Prop :=
  claim = .transit w generation ∨ claim = .owned w generation

instance (claim : Claim) (w generation : Nat) : Decidable (Confirms claim w generation) :=
  inferInstanceAs (Decidable (_ ∨ _))

/-- A worker's handler reads on in its scan, or acts on what it found. -/
def read (layout : Layout ι) (s : State ι) (w : Nat) (e : Env) : State ι :=
  match (s.workers w).await with
  | .claiming taker scan =>
    if scan.todo = [] then
      onClaim layout s w scan.object taker (scan.best.getD .unclaimed) e
    else s.goTo w (.claiming taker (s.readNext scan))
  | .reconciling tm after scan =>
    if scan.todo = [] then
      if Confirms (scan.best.getD .unclaimed) w tm.generation
      then s.install w scan.object tm after e else s.goTo w .idle
    else s.goTo w (.reconciling tm after (s.readNext scan))
  | .idle | .granting .. => s

/-- `release`: the renunciation and its checkpoint. A put that reports an error is taken back in
memory. -/
def release (layout : Layout ι) (s : State ι) (w : Nat) (object : ι) (dest : Nat) (e : Env) :
    Option TransferMeta × State ι :=
  let worker := s.workers w
  let generation := (known worker.memory object).getD 0 + 1
  let memory := renounce worker.memory object dest generation
  match e.fault with
  | .failed => (none, s)
  | .lost => (none, { s with checkpoints := s.checkpoints.insert w memory })
  | .none =>
    let s := s.update w { worker with memory, metas := Function.update worker.metas object none }
    (some (departure layout.hysteresis w (worker.metas object) generation e.now),
      { s with
        checkpoints := s.checkpoints.insert w memory
        history := .released w object generation :: s.history })

/-- Only an owner has takes in a queue; whoever waits behind the front is bounced. -/
def grant (layout : Layout ι) (s : State ι) (w : Nat) (object : ι) (e : Env) : State ι :=
  match (s.workers w).queues object with
  | [] => s
  | taker :: _ =>
    let (tm, s) := release layout s w object taker e
    let worker := s.workers w
    let worker := { worker with queues := Function.update worker.queues object [] }
    match tm with
    | some tm => s.update w { worker with await := .granting object taker tm }
    | none => s.update w worker

/-- The reply to the taker; a deed that nobody waits for is reclaimed at the next generation. -/
def reply (s : State ι) (w : Nat) (delivered : Bool) (e : Env) : State ι :=
  match (s.workers w).await with
  | .granting object taker tm =>
    if delivered then { s.goTo w .idle with deeds := ⟨taker, object, tm⟩ :: s.deeds }
    else (s.goTo w .idle).admitDeed w object { tm with generation := tm.generation + 1 } .nothing e
  | _ => s

/-- The hysteresis return of an object with nothing queued. -/
def returnHome (layout : Layout ι) (s : State ι) (w : Nat) (object : ι) (e : Env) : State ι :=
  match (s.workers w).queues object, ((s.workers w).metas object).bind Meta.returnTo with
  | [], some home =>
    if home = w then s else
    match release layout s w object home e with
    | (some tm, s) =>
      { s with deeds := ⟨home, object, { tm with settled := false, home := home }⟩ :: s.deeds }
    | (none, s) => s
  | _, _ => s

/-- The reply to a take: a duplicate of what another path healed is harmless. -/
def onTaken (s : State ι) (d : Deed ι) (e : Env) : State ι :=
  if ((s.workers d.dest).memory.owned d.object).isSome then s
  else s.admitDeed d.dest d.object d.tm .nothing e

/-- A take task reads on, or sends its own worker an `Adopt` for the claim it found. -/
def chase (s : State ι) (i : Nat) : State ι :=
  match s.chases[i]? with
  | none => s
  | some c =>
    if c.scan.todo = [] then
      let s := { s with chases := s.chases.eraseIdx i }
      match c.scan.best with
      | some (.owned v g) | some (.transit v g) =>
        if v = c.worker then
          { s with deeds := ⟨c.worker, c.scan.object, ⟨false, c.worker, none, g⟩⟩ :: s.deeds }
        else s
      | _ => s
    else { s with chases := s.chases.set i { c with scan := s.readNext c.scan } }

end State

/-- One step. Messages arrive in any order, any number of times or never; a take task never asks its
own worker. A put of some other object's handoff is `checkpoint`. -/
inductive Move (ι : Type) where
  | take (w : Nat) (object : ι) (taker : Nat)
  | adopt (i : Nat)
  | taken (i : Nat)
  | park (w : Nat) (object : ι)
  | unpark (w : Nat) (object : ι)
  | read (w : Nat)
  | grant (w : Nat) (object : ι)
  | reply (w : Nat) (delivered : Bool)
  | returnHome (w : Nat) (object : ι)
  | checkpoint (w : Nat)
  | startChase (w : Nat) (object : ι)
  | chase (i : Nat)
  deriving DecidableEq, Repr

/-- A worker takes a message only between handlers. -/
def State.whenIdle (s : State ι) (w : Nat) (next : State ι) : State ι :=
  match (s.workers w).await with
  | .idle => next
  | _ => s

def State.step (layout : Layout ι) (s : State ι) (m : Move ι × Env) : State ι :=
  match m.1 with
  | .take w object taker => if taker = w then s else s.whenIdle w (s.take w object taker)
  | .adopt i =>
    match s.deeds[i]? with
    | none => s
    | some d => s.whenIdle d.dest (s.admitDeed d.dest d.object d.tm .nothing m.2)
  | .taken i =>
    match s.deeds[i]? with
    | none => s
    | some d => s.whenIdle d.dest ((s.unpark d.dest d.object).onTaken d m.2)
  | .park w object => s.whenIdle w (s.park w object)
  | .unpark w object => s.whenIdle w (s.unpark w object)
  | .read w => s.read layout w m.2
  | .grant w object => s.whenIdle w (s.grant layout w object m.2)
  | .reply w delivered => s.reply w delivered m.2
  | .returnHome w object => s.whenIdle w (s.returnHome layout w object m.2)
  | .checkpoint w => s.checkpoint w m.2.fault
  | .startChase w object => { s with chases := ⟨w, s.scan object⟩ :: s.chases }
  | .chase i => s.chase i

end Handlers

end Fafo.Ownership
