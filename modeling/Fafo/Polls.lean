import Fafo.Api
import Fafo.Boats

/-! A worker's live objects, boats and parked polls: what runs, what ships, and who is answered. -/
namespace Fafo.Polls

inductive OpResult (Row : Type) where
  | rows (rows : List Row)
  | affected (n : Nat)
  deriving DecidableEq

/-- Which of the answer paths a response comes from. -/
inductive TxnId where
  | txn (t : Nat)
  | poll (i : Nat)
  | refresh
  deriving DecidableEq

structure TxnResponse (Row : Type) where
  txnId : TxnId
  results : List (OpResult Row)
  hash : Option String
  deriving DecidableEq

/-- SQLite as `run_op` meets it: an image is an object's database file, and a statement comes with
its parameters and the capability it runs under. A read-only statement changes nothing, and any
other one bumps the change counter if it writes. -/
structure Sqlite (Img Sql Row : Type) where
  readonly : Sql → Bool
  query : Img → Sql → Except String (OpResult Row)
  exec : Img → Sql → Except String (OpResult Row × Img)
  blank : Img
  changeCounter : Img → Nat
  pollHash : List (OpResult Row) → String
  exec_writes : ∀ {image sql result image'}, exec image sql = .ok (result, image') →
    image' = image ∨ changeCounter image < changeCounter image'

/-- What is fixed: the engine, the caps, the system objects, and the objects' names. -/
structure Site (ι Img Sql Row : Type) extends Sqlite Img Sql Row where
  logPrimary : Bool
  maxBoatBytes : Nat
  maxUnshipped : Nat
  system : ι → Bool
  name : ι → String

structure Op (ι Sql : Type) where
  object : ι
  sql : Sql

structure PollOpts where
  durable : Bool
  baseline : Option String
  conn : Nat
  frame : Nat

structure PendingPoll (Sql : Type) where
  conn : Nat
  frame : Nat
  sql : Sql
  durable : Bool
  baseline : Option String
  resp : Nat
  deriving DecidableEq

/-- A transaction that holds the head of every participant's queue. A poll is a single query. -/
structure Txn (ι Sql : Type) where
  txn : Nat
  participants : List ι
  ops : List (Op ι Sql)
  readOnly : Bool
  optimistic : Bool
  poll : Option PollOpts
  resp : Nat
  single : poll.isSome → ∃ op, participants = [op.object] ∧ ops = [op] ∧ readOnly = true

/-- Whom an answer is for: a transaction, or a poll on an object. -/
structure Asker (ι Sql : Type) where
  resp : Nat
  poll : Option (ι × PendingPoll Sql)
  deriving DecidableEq

abbrev Waiter (ι Sql Row : Type) := Asker ι Sql × TxnResponse Row

/-- What a message sends out. -/
structure Sent (ι Sql Row : Type) where
  asker : Asker ι Sql
  answer : Except ApiError (TxnResponse Row)

structure ShipItem (ι Img : Type) where
  object : ι
  image : Img
  expectedSeq : Nat

/-- Where a ship task stands: on its way, or committed, with the objects it has promoted so far, or
failed, though its commit may have landed. -/
inductive Voyage (ι : Type) where
  | underway
  | committed (promoted : List ι)
  | failed (landed : Bool) (rebased : Option ι)

structure Ship (ι Img Sql Row : Type) where
  items : List (ShipItem ι Img)
  waiters : List (Waiter ι Sql Row)
  voyage : Voyage ι

/-- The blob fetch of an activation, with the image it has read and the committed seq of that. -/
structure Fetch (ι Img : Type) where
  object : ι
  image : Img
  seq : Nat

/-- A worker, the store's images of its objects, and what the current message sends. Under the log
engine the images committed after the blank one are the folds at seq 1, 2 and so on; under the
legacy engine an object has the image that was promoted last, and there are the commit records that
have landed and are not yet deleted. For the record, whether a revert has ever taken along an object
that a boat was carrying. -/
structure State (ι Img Sql Row : Type) where
  live : ι → Option Img := fun _ => none
  logSeq : ι → Option Nat := fun _ => none
  boats : Boats ι (Waiter ι Sql Row) := {}
  ship : Option (Ship ι Img Sql Row) := none
  polls : List (ι × PendingPoll Sql) := []
  fetches : List (Fetch ι Img) := []
  closing : Bool := false
  done : Bool := false
  panicked : Bool := false
  committed : ι → List Img := fun _ => []
  promoted : ι → Img
  records : List (List (ShipItem ι Img)) := []
  torn : Bool := false
  outbox : List (Sent ι Sql Row) := []

/-- What the environment decides for a step: which objects the routing says are the worker's, which
can be read or stand in a queue, what a fold of an object comes to, and what the next one of the
same message does (it fails, or misses so many of the entries that were committed last), sizes,
whose client is gone, whether a COMMIT fails and where, whether a file header can be read, and
whether the ledger names another owner. -/
structure Env (ι : Type) where
  owns : ι → Bool := fun _ => true
  readable : Bool := true
  folds : ι → Option Nat := fun _ => some 0
  refolds : ι → Option Nat := fun _ => some 0
  queued : ι → Bool := fun _ => false
  bytes : ι → Nat := fun _ => 0
  gone : Nat → Bool := fun _ => false
  commitError : Option (Nat × String) := none
  headerLost : ι → Bool := fun _ => false
  claimed : Bool := false

variable {ι Img Sql Row : Type} [LinearOrder ι]

/-- For the next fold of the same message. -/
def Env.again (e : Env ι) : Env ι := { e with folds := e.refolds }

/-- Does a poll reply now? With a baseline, when the result changed; without, when the result is
non-empty. -/
def pollReady (baseline : Option String) (results : List (OpResult Row)) (hash : String) : Bool :=
  match baseline with
  | some b => b ≠ hash
  | none =>
    match results.head? with
    | some (.rows rows) => !rows.isEmpty
    | _ => false

/-- What a re-check makes of a poll. -/
inductive Verdict (Row : Type) where
  | dropped
  | kept
  | fired (results : List (OpResult Row)) (hash : String)
  | broken (error : ApiError)

def Verdict.isKept : Verdict Row → Bool
  | kept => true
  | _ => false

namespace State

variable (site : Site ι Img Sql Row) (e : Env ι)

def committedSeq (s : State ι Img Sql Row) (o : ι) : Nat := (s.committed o).length

/-- The seq that a read of the log comes to. An outcome that cannot be read ends the prefix as one
that is pending does, and the entries from there on are missed. -/
def readSeq (s : State ι Img Sql Row) (o : ι) (missed : Nat) : Nat := s.committedSeq o - missed

/-- The committed fold of an object, but for the entries that are missed. -/
def fold (s : State ι Img Sql Row) (o : ι) (missed : Nat) : Img :=
  ((s.committed o).take (s.readSeq o missed)).getLast?.getD site.blank

/-- What an activation reads. -/
def durable (s : State ι Img Sql Row) (o : ι) (missed : Nat) : Img :=
  if site.logPrimary then s.fold site o missed else s.promoted o

def send (s : State ι Img Sql Row) (asker : Asker ι Sql)
    (answer : Except ApiError (TxnResponse Row)) : State ι Img Sql Row :=
  { s with outbox := s.outbox ++ [⟨asker, answer⟩] }

def sendAll (s : State ι Img Sql Row) (waiters : List (Waiter ι Sql Row)) : State ι Img Sql Row :=
  { s with outbox := s.outbox ++ waiters.map fun w => ⟨w.1, .ok w.2⟩ }

def failAll (s : State ι Img Sql Row) (askers : List (Asker ι Sql)) (error : ApiError) :
    State ι Img Sql Row :=
  { s with outbox := s.outbox ++ askers.map fun a => ⟨a, .error error⟩ }

def setLive (s : State ι Img Sql Row) (o : ι) (image : Option Img) : State ι Img Sql Row :=
  { s with live := Function.update s.live o image }

def setLogSeq (s : State ι Img Sql Row) (o : ι) (seq : Option Nat) : State ι Img Sql Row :=
  { s with logSeq := Function.update s.logSeq o seq }

def pollAsker (o : ι) (p : PendingPoll Sql) : Asker ι Sql := ⟨p.resp, some (o, p)⟩

/-- The polls parked on one of the objects. -/
def pollsOn (s : State ι Img Sql Row) (objects : List ι) : List (ι × PendingPoll Sql) :=
  s.polls.filter fun q => q.1 ∈ objects

/-- The polls of these objects cannot be honoured here any more. -/
def failPolls (objects : List ι) (reason : String) (s : State ι Img Sql Row) :
    State ι Img Sql Row :=
  { s.failAll ((s.pollsOn objects).map fun q => pollAsker q.1 q.2) (.internal reason) with
    polls := s.polls.filter fun q => q.1 ∉ objects }

/-- One poll of the pass's durability, judged against an image. -/
def judge (image : Img) (durablePass : Bool) (p : PendingPoll Sql) : Verdict Row :=
  if e.gone p.resp then .dropped
  else if p.durable ≠ durablePass then .kept
  else
    match site.query image p.sql with
    | .ok result =>
      let results := [result]
      let hash := site.pollHash results
      if pollReady p.baseline results hash then .fired results hash else .kept
    | .error msg => .broken (.badRequest msg)

/-- Re-check the polls of an object: those that fire are taken out. A poll on an object that is not
live keeps waiting. -/
def takeFiredPolls (o : ι) (durablePass : Bool) (s : State ι Img Sql Row) :
    List (Waiter ι Sql Row) × State ι Img Sql Row :=
  match s.live o with
  | none => ([], s)
  | some image =>
    let fired := (s.pollsOn [o]).zipIdx.filterMap fun (q, i) =>
      match judge site e image durablePass q.2 with
      | .fired results hash => some (pollAsker o q.2, ⟨.poll i, results, some hash⟩)
      | _ => none
    let broken := (s.pollsOn [o]).filterMap fun q =>
      match judge site e image durablePass q.2 with
      | .broken error => some ⟨pollAsker o q.2, .error error⟩
      | _ => none
    (fired, { s with
      polls := s.polls.filter fun q =>
        q.1 ≠ o || (judge site e image durablePass q.2).isKept
      outbox := s.outbox ++ broken })

/-- Re-check the polls of these objects, and answer those that fire. -/
def firePolls (durablePass : Bool) (objects : List ι) (s : State ι Img Sql Row) :
    State ι Img Sql Row :=
  objects.foldl (fun s o =>
    let (fired, s) := s.takeFiredPolls site e o durablePass
    s.sendAll fired) s

/-- Revert the closure of the seed to durable state: its polls and the waiters of the transactions
it kills are failed, and its objects go cold and clean. -/
def revertClosure (seed : List ι) (s : State ι Img Sql Row) : State ι Img Sql Row :=
  let reverted := s.boats.closure seed
  let s := s.failAll ((s.boats.killed seed).filterMap fun t => t.waiter.map Prod.fst)
    (.internal "state reverted; retry")
  let s := { s with boats := s.boats.reverted seed }
  let s := s.failPolls reverted "state reverted; re-poll"
  { s with
    live := fun o => if o ∈ reverted then none else s.live o
    logSeq := fun o => if o ∈ reverted then none else s.logSeq o
    torn := s.torn || s.boats.inflight.any fun boat => reverted.any fun o => o ∈ boat }

/-- Dirty objects that are owned elsewhere are not shipped. -/
def revertOrphaned (s : State ι Img Sql Row) : State ι Img Sql Row :=
  let orphaned := s.boats.dirty.keys.filter fun o => !e.owns o
  if orphaned.isEmpty then s else s.revertClosure orphaned

/-- The durable polls of these objects that fire ride the boat. -/
def board (objects : List ι) (s : State ι Img Sql Row) :
    List (Waiter ι Sql Row) × State ι Img Sql Row :=
  objects.foldl (fun (waiters, s) o =>
    let (fired, s) := s.takeFiredPolls site e o true
    (waiters ++ fired, s)) ([], s)

/-- What an object ships: its live image, on top of the seq that reflects. -/
def item (s : State ι Img Sql Row) (o : ι) : Option (ShipItem ι Img) :=
  (s.live o).map fun image => ⟨o, image, (s.logSeq o).getD 0⟩

/-- Launch a boat if none is in flight and something is pending. If a live file cannot be read, all
that the boat was to carry is reverted; a dirty object is expected to be live. -/
def launch (s : State ι Img Sql Row) : State ι Img Sql Row :=
  if s.boats.inflight.isSome || s.boats.pending.isEmpty then s else
  let cut := s.boats.cut site.maxBoatBytes
  let waiters := s.boats.boarding cut
  let boats := s.boats.ashore cut
  if e.readable then
    if cut.objects.all fun o => (s.live o).isSome then
      let items := cut.objects.filterMap s.item
      let (fired, s) := board site e cut.objects { s with boats }
      { s with
        boats := { boats with inflight := some cut.objects }
        ship := some ⟨items, waiters ++ fired, .underway⟩ }
    else { s with panicked := true }
  else
    let s := { s with boats }.failPolls cut.objects "state reverted; re-poll"
    let s := { s with live := fun o => if o ∈ cut.objects then none else s.live o }
    s.failAll (waiters.map Prod.fst) (.internal "snapshot failed; state reverted")

def maybeLaunch (s : State ι Img Sql Row) : State ι Img Sql Row :=
  launch site e (s.revertOrphaned e)

/-- `maybe_finish_closing`: nothing is in flight or pending. -/
def finishClosing (s : State ι Img Sql Row) : State ι Img Sql Row :=
  if s.closing && s.boats.inflight.isNone && s.boats.pending.isEmpty then
    { s.failPolls (s.polls.map Prod.fst) "worker shutting down; re-poll" with
      closing := false, done := true }
  else s

/-- The object takes a fold in. -/
def refold (o : ι) (missed : Nat) (s : State ι Img Sql Row) : State ι Img Sql Row :=
  (s.setLive o (some (s.fold site o missed))).setLogSeq o (some (s.readSeq o missed))

/-- Re-fold a clean object that has fallen behind, and whether it had. -/
def refreshIfStale (o : ι) (s : State ι Img Sql Row) : Bool × State ι Img Sql Row :=
  if s.boats.unshipped o then (false, s)
  else
    match e.folds o with
    | none => (false, s)
    | some missed =>
      if s.readSeq o missed ≤ (s.logSeq o).getD 0 then (false, s)
      else (true, s.refold site o missed)

/-- Rebuild a clean object that is live, whatever its seq says. -/
def refoldCleanBase (o : ι) (s : State ι Img Sql Row) : State ι Img Sql Row :=
  if site.system o || s.boats.unshipped o || (s.live o).isNone then s
  else
    match e.folds o with
    | none => s
    | some missed => s.refold site o missed

/-- Re-fold an object that polls wait on, if its count of committed entries has moved on. -/
def recount (o : ι) (s : State ι Img Sql Row) : State ι Img Sql Row :=
  match e.folds o, e.refolds o with
  | some uncounted, some missed =>
    if s.readSeq o uncounted ≤ (s.logSeq o).getD 0 then s else s.refold site o missed
  | _, _ => s

/-- Before a transaction runs under the log engine. -/
def catchUp (t : Txn ι Sql) (s : State ι Img Sql Row) : State ι Img Sql Row :=
  if site.logPrimary then
    t.participants.foldl (fun s o =>
      if t.readOnly then (s.refreshIfStale site e o).2 else s.refoldCleanBase site e o) s
  else s

/-- The reads of a transaction. -/
def readOps (s : State ι Img Sql Row) : List (Op ι Sql) → Except ApiError (List (OpResult Row))
  | [] => .ok []
  | op :: ops =>
    if !site.readonly op.sql then
      .error (.badRequest
        "query must be read-only; use /txn or /objects/{id}/exec for writes")
    else
      match (s.live op.object).elim (.error "participant activated") fun image =>
          site.query image op.sql with
      | .error msg => .error (.badRequest msg)
      | .ok result =>
        match s.readOps ops with
        | .error error => .error error
        | .ok results => .ok (result :: results)

/-- The writes of a transaction, on the images they leave behind. -/
def writeOps (images : ι → Option Img) : List (Op ι Sql) →
    Except String (List (OpResult Row) × (ι → Option Img))
  | [] => .ok ([], images)
  | op :: ops =>
    match (images op.object).elim (.error "participant activated") fun image =>
        site.exec image op.sql with
    | .error msg => .error msg
    | .ok (result, image) =>
      match writeOps (Function.update images op.object (some image)) ops with
      | .error msg => .error msg
      | .ok (results, images) => .ok (result :: results, images)

/-- Apply a transaction to local state: what it reads, and which participants it changed. -/
def apply (t : Txn ι Sql) (s : State ι Img Sql Row) :
    Except ApiError (List (OpResult Row) × List ι) × State ι Img Sql Row :=
  match t.participants.find? fun o => (s.live o).isNone with
  | some missing =>
    (.error (.internal ("participant " ++ site.name missing ++
      " reverted before execution; retry")), s)
  | none =>
  if t.readOnly then
    match s.readOps site t.ops with
    | .error error => (.error error, s)
    | .ok results => (.ok (results, []), s)
  else
    match writeOps site s.live t.ops with
    | .error msg =>
      (.error (.badRequest ("op failed, transaction rolled back: " ++ msg)), s)
    | .ok (results, images) =>
      match e.commitError.filter fun failed => failed.1 < t.participants.length with
      | some (failedAt, msg) =>
        (.error (.internal ("local commit failed: " ++ msg)),
          s.revertClosure (t.participants.take failedAt))
      | none =>
        (.ok (results, t.participants.filter fun o =>
          (images o).map site.changeCounter ≠ (s.live o).map site.changeCounter || e.headerLost o),
          { s with live := fun o => if o ∈ t.participants then images o else s.live o })

/-- A durable poll on a clean object that would not fire may read a stale image: re-fold, and run it
again. -/
def refreshStalePoll (o : ι) (po : PollOpts) (op : Op ι Sql) (s : State ι Img Sql Row) :
    Option (TxnResponse Row) × State ι Img Sql Row :=
  match s.refreshIfStale site e o with
  | (false, s) => (none, s)
  | (true, s) =>
    match (s.live o).map fun image => site.query image op.sql with
    | some (.ok result) =>
      let results := [result]
      let hash := site.pollHash results
      if pollReady po.baseline results hash then (some ⟨.refresh, results, some hash⟩, s)
      else (none, s)
    | _ => (none, s)

/-- A poll whose query just ran: it is answered, or it parks. -/
def register (t : Txn ι Sql) (po : PollOpts) (o : ι) (op : Op ι Sql)
    (results : List (OpResult Row)) (s : State ι Img Sql Row) : State ι Img Sql Row :=
  let p : PendingPoll Sql := ⟨po.conn, po.frame, op.sql, po.durable, po.baseline, t.resp⟩
  let hash := site.pollHash results
  if !(po.durable && s.boats.unshipped o) && pollReady po.baseline results hash then
    s.send (pollAsker o p) (.ok ⟨.txn t.txn, results, some hash⟩)
  else
    match if po.durable && site.logPrimary && !s.boats.unshipped o
        then s.refreshStalePoll site e.again o po op else (none, s) with
    | (some response, s) => s.send (pollAsker o p) (.ok response)
    | (none, s) => { s with polls := s.polls ++ [(o, p)] }

/-- A write's answer goes out at once, or rides the boat: a pessimistic one, and any one above the
watermark. -/
def acknowledge (t : Txn ι Sql) (results : List (OpResult Row)) (changed : List ι)
    (s : State ι Img Sql Row) : State ι Img Sql Row :=
  let response : TxnResponse Row := ⟨.txn t.txn, results, none⟩
  let dirtyBytes := (changed.foldl (fun b o => Boats.soil e.bytes o b) s.boats).dirtyBytes
  if t.optimistic && decide (dirtyBytes ≤ site.maxUnshipped) then
    { s.send ⟨t.resp, none⟩ (.ok response) with
      boats := s.boats.applied e.bytes ⟨changed, none⟩ }
  else { s with boats := s.boats.applied e.bytes ⟨changed, some (⟨t.resp, none⟩, response)⟩ }

/-- What a transaction that was applied comes to. -/
def settle (t : Txn ι Sql) (results : List (OpResult Row)) (changed : List ι)
    (s : State ι Img Sql Row) : State ι Img Sql Row :=
  if t.readOnly then
    match t.poll, t.participants.head?, t.ops.head? with
    | some po, some o, some op => s.register site e t po o op results
    | _, _, _ => s.send ⟨t.resp, none⟩ (.ok ⟨.txn t.txn, results, none⟩)
  else if changed.isEmpty then
    (s.send ⟨t.resp, none⟩ (.ok ⟨.txn t.txn, results, none⟩)).firePolls site e false t.participants
  else (s.acknowledge site e t results changed).firePolls site e false t.participants

/-- `run_and_complete`. -/
def runAndComplete (t : Txn ι Sql) (s : State ι Img Sql Row) : State ι Img Sql Row :=
  let s := s.catchUp site e t
  let s :=
    match s.apply site e t with
    | (.error error, s) => s.send ⟨t.resp, none⟩ (.error error)
    | (.ok (results, changed), s) => s.settle site e t results changed
  s.maybeLaunch site e

/-- The ledger names another owner of the object a boat was rebased on: it is given up. -/
def relinquish (rebased : Option ι) (s : State ι Img Sql Row) : State ι Img Sql Row :=
  match rebased with
  | none => s
  | some o =>
    if e.claimed then
      { ((s.setLive o none).setLogSeq o none).failPolls [o] "object claimed elsewhere; re-poll" with
        boats := s.boats.clean o }
    else s

/-- A boat has landed: what was not promoted is dirty again, and the durable polls of what is clean
are judged against the state that has just landed. -/
def landed (shipped promoted objects : List ι) (s : State ι Img Sql Row) :
    State ι Img Sql Row :=
  let unpromoted := if site.logPrimary then [] else shipped.filter fun o => o ∉ promoted
  let s := if site.logPrimary
    then { s with logSeq := fun o => if o ∈ objects then (s.logSeq o).map (· + 1) else s.logSeq o }
    else s
  let s := if unpromoted.isEmpty then s
    else { s with boats := s.boats.applied e.bytes ⟨unpromoted, none⟩ }
  s.firePolls site e true (objects.filter fun o => (s.boats.dirty.lookup o).isNone)

/-- `on_ship_done`, for the voyage's outcome. -/
def onShipDone (s : State ι Img Sql Row) : State ι Img Sql Row :=
  match s.ship, s.boats.inflight with
  | some ⟨items, _, .committed promoted⟩, some objects =>
    let s := { s with boats := { s.boats with inflight := none }, ship := none }
    let s := s.landed site e (items.map ShipItem.object) promoted objects
    (s.maybeLaunch site e).finishClosing
  | some ⟨_, _, .failed _ rebased⟩, some objects =>
    let s := { s with boats := { s.boats with inflight := none }, ship := none }
    let s := (s.relinquish e rebased).revertClosure objects
    (s.maybeLaunch site e).finishClosing
  | _, _ => s

def shutdown (s : State ι Img Sql Row) : State ι Img Sql Row :=
  let s := { s with closing := true }
  (s.maybeLaunch site e).finishClosing

/-- Deactivate what is idle, clean and unqueued. -/
def shed (s : State ι Img Sql Row) : State ι Img Sql Row :=
  { s with live := fun o => if s.boats.unshipped o || e.queued o then s.live o else none }

/-- Catch up with the log wherever polls are parked, and re-check them. -/
def recheckPolls (s : State ι Img Sql Row) : State ι Img Sql Row :=
  ((s.polls.map Prod.fst).dedup.filter fun o => !s.boats.unshipped o).foldl (fun s o =>
    let s := if site.logPrimary then s.recount site e o else s
    (s.firePolls site e true [o]).firePolls site e false [o]) s

def cancelPoll (o : ι) (conn frame : Nat) (s : State ι Img Sql Row) : State ι Img Sql Row :=
  { s with polls := s.polls.filter fun q => !(q.1 = o && q.2.conn = conn && q.2.frame = frame) }

/-- What a fetch brought is live, if the object is the worker's and still cold. -/
def onActivated (f : Fetch ι Img) (ok : Bool) (s : State ι Img Sql Row) : State ι Img Sql Row :=
  if ok && e.owns f.object && (s.live f.object).isNone then
    let s := s.setLive f.object (some f.image)
    if site.logPrimary then s.setLogSeq f.object (some f.seq) else s
  else s

/-- A clean object is handed over. -/
def release (o : ι) (s : State ι Img Sql Row) : State ι Img Sql Row :=
  if s.boats.unshipped o then s
  else (s.failPolls [o] "object migrated; re-poll").setLive o none

/-- An object arrives. The log engine drops what it has cached of a clean one. -/
def arrive (o : ι) (s : State ι Img Sql Row) : State ι Img Sql Row :=
  if site.logPrimary && (s.boats.dirty.lookup o).isNone then
    (s.setLive o none).setLogSeq o (some ((e.folds o).elim 0 (s.readSeq o)))
  else s

def fetching (s : State ι Img Sql Row) (o : ι) : Bool := s.fetches.any fun f => f.object = o

/-- A record that has landed moves an object only to a higher change counter. -/
def promoteStaged (s : State ι Img Sql Row) (item : ShipItem ι Img) : State ι Img Sql Row :=
  if site.changeCounter item.image ≤ site.changeCounter (s.promoted item.object) then s
  else { s with promoted := Function.update s.promoted item.object item.image }

/-- `recover_records_touching`: the legacy engine rolls forward whole records. -/
def recoverTouching (o : ι) (s : State ι Img Sql Row) : State ι Img Sql Row :=
  if site.logPrimary then s
  else
    let (touching, others) := s.records.partition fun record => record.any fun i => i.object = o
    touching.flatten.foldl (promoteStaged site) { s with records := others }

/-- The head of a cold object's queue has it fetched. Under the legacy engine nothing but an
activation makes an object live, so that the head that waits for one keeps its place. -/
def startFetch (o : ι) (s : State ι Img Sql Row) : State ι Img Sql Row :=
  if (s.live o).isSome || (!site.logPrimary && s.fetching o) then s
  else
    let s := s.recoverTouching site o
    let missed := (e.folds o).getD 0
    { s with fetches := s.fetches ++ [⟨o, s.durable site o missed, s.readSeq o missed⟩] }

/-- An image is committed. Its fold is the image itself: the log takes whole snapshots. -/
def logged (o : ι) (image : Img) (s : State ι Img Sql Row) : State ι Img Sql Row :=
  { s with committed := Function.update s.committed o (s.committed o ++ [image]) }

/-- A boat's commit record lands. -/
def land (items : List (ShipItem ι Img)) (s : State ι Img Sql Row) : State ι Img Sql Row :=
  if site.logPrimary then items.foldl (fun s item => logged item.object item.image s) s
  else { s with records := s.records ++ [items] }

/-- The prewrites of a boat find nothing that was committed since. -/
def abreast (items : List (ShipItem ι Img)) (s : State ι Img Sql Row) : Bool :=
  !site.logPrimary || items.all fun item => s.committedSeq item.object = item.expectedSeq

/-- The commit record lands: all that the boat carries is committed, and its waiters answered. -/
def commit (s : State ι Img Sql Row) : State ι Img Sql Row :=
  match s.ship with
  | some ⟨items, waiters, .underway⟩ =>
    if s.abreast site items then
      { (s.land site items).sendAll waiters with ship := some ⟨items, [], .committed []⟩ }
    else s
  | _ => s

/-- The ship task gives up. A commit record whose put was reported lost may have landed. -/
def fail (landed : Bool) (rebased : Option ι) (msg : String) (s : State ι Img Sql Row) :
    State ι Img Sql Row :=
  match s.ship with
  | some ⟨items, waiters, .underway⟩ =>
    let landed := landed && s.abreast site items
    let s := if landed then s.land site items else s
    { s.failAll (waiters.map Prod.fst) (.internal ("commit failed: " ++ msg)) with
      ship := some ⟨items, [],
        .failed landed (rebased.filter fun o => o ∈ items.map ShipItem.object)⟩ }
  | _ => s

/-- An entry is erased: the committed prefix ends before it. -/
def erase (o : ι) (seq : Nat) (s : State ι Img Sql Row) : State ι Img Sql Row :=
  { s with committed := Function.update s.committed o ((s.committed o).take seq) }

/-- The ship task that has given up clears an entry of its boat: as it cannot read the outcome, also
when its commit has landed. -/
def clear (o : ι) (s : State ι Img Sql Row) : State ι Img Sql Row :=
  match s.ship with
  | some ⟨items, _, .failed true _⟩ =>
    match items.find? fun item => item.object = o with
    | some item => if site.logPrimary then s.erase o item.expectedSeq else s
    | none => s
  | _ => s

/-- The legacy engine promotes an object of the boat that has committed. -/
def promote (o : ι) (s : State ι Img Sql Row) : State ι Img Sql Row :=
  match s.ship with
  | some ⟨items, waiters, .committed promoted⟩ =>
    match items.find? fun item => item.object = o with
    | some item =>
      if site.logPrimary || o ∈ promoted then s
      else { s with
        promoted := Function.update s.promoted o item.image
        ship := some ⟨items, waiters, .committed (o :: promoted)⟩ }
    | none => s
  | _ => s

/-- A record is deleted when all that it carries has been promoted. -/
def forget (i : Nat) (s : State ι Img Sql Row) : State ι Img Sql Row :=
  match s.records[i]? with
  | none => s
  | some record =>
    if record.all fun item =>
        site.changeCounter item.image ≤ site.changeCounter (s.promoted item.object) then
      { s with records := s.records.eraseIdx i }
    else s

/-- Another worker commits to an object. Under the legacy engine that is its owner, while nothing of
it is here. -/
def peer (o : ι) (image : Img) (s : State ι Img Sql Row) : State ι Img Sql Row :=
  if site.logPrimary then s.logged o image
  else if (s.live o).isSome || s.boats.unshipped o || s.fetching o then s
  else { s with promoted := Function.update s.promoted o image }

/-- Another worker clears an entry of its own, under the log engine. -/
def peerClear (o : ι) (seq : Nat) (s : State ι Img Sql Row) : State ι Img Sql Row :=
  if site.logPrimary then s.erase o seq else s

end State

inductive Move (ι Img Sql : Type) where
  | run (t : Txn ι Sql)
  | startFetch (o : ι)
  | activated (i : Nat) (ok : Bool)
  | shipDone
  | shutdown
  | shed
  | recheckPolls
  | cancelPoll (o : ι) (conn frame : Nat)
  | release (o : ι)
  | arrive (o : ι)
  | commit
  | fail (landed : Bool) (rebased : Option ι) (msg : String)
  | clear (o : ι)
  | promote (o : ι)
  | recover (o : ι)
  | forget (i : Nat)
  | peer (o : ι) (image : Img)
  | peerClear (o : ι) (seq : Nat)

/-- A worker handles messages as long as it runs. -/
def State.handle (s next : State ι Img Sql Row) : State ι Img Sql Row :=
  if s.done || s.panicked then s else next

/-- One step. Its outbox holds what that step sends. -/
def State.step (site : Site ι Img Sql Row) (s : State ι Img Sql Row)
    (m : Move ι Img Sql × Env ι) : State ι Img Sql Row :=
  let s := { s with outbox := [] }
  match m.1 with
  | .run t => s.handle (s.runAndComplete site m.2 t)
  | .startFetch o => s.startFetch site m.2 o
  | .activated i ok =>
    match s.fetches[i]? with
    | none => s
    | some f =>
      let rest := { s with fetches := s.fetches.eraseIdx i }
      s.handle (rest.onActivated site m.2 f ok)
  | .shipDone => s.handle (s.onShipDone site m.2)
  | .shutdown => s.handle (s.shutdown site m.2)
  | .shed => s.handle (s.shed m.2)
  | .recheckPolls => s.handle (s.recheckPolls site m.2)
  | .cancelPoll o conn frame => s.handle (s.cancelPoll o conn frame)
  | .release o => s.handle (s.release o)
  | .arrive o => s.handle (s.arrive site m.2 o)
  | .commit => s.commit site
  | .fail landed rebased msg => s.fail site landed rebased msg
  | .clear o => s.clear site o
  | .promote o => s.promote site o
  | .recover o => s.recoverTouching site o
  | .forget i => s.forget site i
  | .peer o image => s.peer site o image
  | .peerClear o seq => s.peerClear site o seq

end Fafo.Polls
