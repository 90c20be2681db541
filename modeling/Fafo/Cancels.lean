import Fafo.DurablePolls
import Mathlib.Data.Fintype.Basic

/-! The polls of a node's connections: their frames, the channels to its workers, and cancellation.
-/
namespace Fafo.Polls

/-- A poll, as a frame of a connection asks for it. -/
structure Call (ι Sql : Type) where
  object : ι
  conn : Nat
  frame : Nat
  sql : Sql
  durable : Bool
  baseline : Option String

/-- A `CancelPoll`; for the record, which calls it is meant for. -/
structure Cancel (ι : Type) where
  object : ι
  conn : Nat
  frame : Nat
  meant : List Nat

/-- What a node sends its workers about polls; `resp` is the number of the call. -/
inductive Msg (ι : Type) where
  | submit (resp : Nat)
  | cancelPoll (c : Cancel ι)

/-- A worker with the polls and cancellations in its channel, and the poll transactions that wait to
run: they are queued, or take their object, or activate it. -/
structure Hosted (ι Img Sql Row : Type) where
  mailbox : List (Msg ι) := []
  waiting : List (Txn ι Sql) := []
  worker : State ι Img Sql Row

/-- A node with `n` workers, and those of them that it has spawned: the calls so far, those whose
frame is still at work, those that have been registered and not yet sent, what each connection has
outstanding by frame, and the cancellations that have not yet been sent. For the record, the
connections that have closed, the worker that owned the object of a call when it was cancelled, and
what the cancellations that workers have handled were meant for. -/
structure Node (n : Nat) (ι Img Sql Row : Type) where
  workers : Fin n → Hosted ι Img Sql Row
  spawned : Fin n → Bool := fun _ => false
  calls : List (Call ι Sql) := []
  running : List Nat := []
  opening : List Nat := []
  outstanding : Nat → AList fun _ : Nat => ι := fun _ => ∅
  cancels : List (Cancel ι) := []
  closed : List Nat := []
  addressed : List (Nat × Fin n) := []
  cancelled : List Nat := []

/-- What the environment decides for a step: whom the routing names, which workers the node's leases
cover, and what it decides for a worker. -/
structure NodeEnv (n : Nat) (ι : Type) where
  owner : ι → Fin n
  ownsWorker : Fin n → Bool := fun _ => true
  env : Env ι := {}

variable {n : Nat} {ι Img Sql Row : Type} [LinearOrder ι]

/-- The transaction of a poll. -/
def Call.txn (call : Call ι Sql) (txn resp : Nat) : Txn ι Sql where
  txn := txn
  participants := [call.object]
  ops := [⟨call.object, call.sql⟩]
  readOnly := true
  optimistic := false
  poll := some ⟨call.durable, call.baseline, call.conn, call.frame⟩
  resp := resp
  single _ := ⟨⟨call.object, call.sql⟩, rfl, rfl, rfl⟩

def Msg.submits (resp : Nat) : Msg ι → Bool
  | submit r => r = resp
  | cancelPoll _ => false

namespace Hosted

/-- The call is in the channel, or waits to run. -/
def coming (h : Hosted ι Img Sql Row) (resp : Nat) : Bool :=
  h.mailbox.any (Msg.submits resp) || h.waiting.any fun t => t.resp = resp

def parks (h : Hosted ι Img Sql Row) (resp : Nat) : Bool :=
  h.worker.polls.any fun q => q.2.resp = resp

/-- The poll has fired, and its answer rides a boat. -/
def carries (h : Hosted ι Img Sql Row) (resp : Nat) : Bool :=
  h.worker.ship.any fun ship => ship.waiters.any fun w => w.1.poll.any fun q => q.2.resp = resp

/-- The worker's task still runs. -/
def alive (h : Hosted ι Img Sql Row) : Bool := !h.worker.done && !h.worker.panicked

def step (site : Site ι Img Sql Row) (e : Env ι) (m : Move ι Img Sql)
    (h : Hosted ι Img Sql Row) : Hosted ι Img Sql Row :=
  { h with worker := h.worker.step site (m, e) }

/-- The next message of the channel. -/
def receive (site : Site ι Img Sql Row) (e : Env ι) (calls : List (Call ι Sql)) (txn : Nat)
    (h : Hosted ι Img Sql Row) : Hosted ι Img Sql Row :=
  match h.mailbox with
  | [] => h
  | .submit resp :: rest =>
    match calls[resp]? with
    | some call => { h with mailbox := rest, waiting := h.waiting ++ [call.txn txn resp] }
    | none => { h with mailbox := rest }
  | .cancelPoll c :: rest =>
    { h with mailbox := rest }.step site e (.cancelPoll c.object c.conn c.frame)

end Hosted

namespace Node

/-- The call has yet to reach a worker, waits there or is parked. -/
def Pending (s : Node n ι Img Sql Row) (resp : Nat) : Prop :=
  resp ∈ s.opening ∨ ∃ w, (s.workers w).coming resp ∨ (s.workers w).parks resp

/-- The caller still awaits its answer. -/
def Awaited (s : Node n ι Img Sql Row) (resp : Nat) : Prop :=
  s.Pending resp ∨ ∃ w, (s.workers w).carries resp

instance (s : Node n ι Img Sql Row) (resp : Nat) : Decidable (s.Pending resp) :=
  inferInstanceAs (Decidable (_ ∨ _))

instance (s : Node n ι Img Sql Row) (resp : Nat) : Decidable (s.Awaited resp) :=
  inferInstanceAs (Decidable (_ ∨ _))

def update (s : Node n ι Img Sql Row) (w : Fin n) (h : Hosted ι Img Sql Row) :
    Node n ι Img Sql Row :=
  { s with workers := Function.update s.workers w h }

omit [LinearOrder ι] in
@[simp] theorem update_self (s : Node n ι Img Sql Row) (w : Fin n) (h : Hosted ι Img Sql Row) :
    (s.update w h).workers w = h := by simp [update]

omit [LinearOrder ι] in
theorem update_of_ne (s : Node n ι Img Sql Row) {v w : Fin n} (hv : v ≠ w)
    (h : Hosted ι Img Sql Row) : (s.update w h).workers v = s.workers v := by
  simp [update, Function.update_of_ne hv]

/-- Whether a message for the worker is sent: it is spawned, or can be. -/
def reaches (s : Node n ι Img Sql Row) (e : NodeEnv n ι) (w : Fin n) : Bool :=
  s.spawned w || e.ownsWorker w

/-- `local_sender`, and the send: nothing is sent to a worker that is not local. -/
def post (s : Node n ι Img Sql Row) (e : NodeEnv n ι) (object : ι) (msg : Msg ι) :
    Node n ι Img Sql Row :=
  let w := e.owner object
  if s.reaches e w then
    { s.update w { s.workers w with mailbox := (s.workers w).mailbox ++ [msg] } with
      spawned := Function.update s.spawned w true }
  else s

/-- A poll frame is registered. -/
def poll (call : Call ι Sql) (s : Node n ι Img Sql Row) : Node n ι Img Sql Row :=
  { s with
    calls := s.calls ++ [call]
    running := s.running ++ [s.calls.length]
    opening := s.opening ++ [s.calls.length]
    outstanding := Function.update s.outstanding call.conn
      ((s.outstanding call.conn).insert call.frame call.object) }

/-- `submit_poll` sends the poll to the owner of its object, or refuses it. -/
def submit (e : NodeEnv n ι) (i : Nat) (s : Node n ι Img Sql Row) : Node n ι Img Sql Row :=
  match s.opening[i]? with
  | none => s
  | some resp =>
    match s.calls[resp]? with
    | none => s
    | some call => { s with opening := s.opening.eraseIdx i }.post e call.object (.submit resp)

/-- A poll's frame has its answer, and is no longer outstanding. -/
def reply (i : Nat) (s : Node n ι Img Sql Row) : Node n ι Img Sql Row :=
  match s.running[i]? with
  | none => s
  | some resp =>
    if s.Awaited resp then s else
    match s.calls[resp]? with
    | none => s
    | some call =>
      { s with
        running := s.running.eraseIdx i
        outstanding := Function.update s.outstanding call.conn
          ((s.outstanding call.conn).erase call.frame) }

/-- The calls at work that a cancellation is meant for. -/
def meant (s : Node n ι Img Sql Row) (object : ι) (conn frame : Nat) : List Nat :=
  s.running.filter fun resp => s.calls[resp]?.any fun call =>
    call.object = object ∧ call.conn = conn ∧ call.frame = frame

/-- A cancel frame looks its poll up. -/
def cancel (conn frame : Nat) (s : Node n ι Img Sql Row) : Node n ι Img Sql Row :=
  match (s.outstanding conn).lookup frame with
  | none => s
  | some object =>
    { s with
      outstanding := Function.update s.outstanding conn ((s.outstanding conn).erase frame)
      cancels := s.cancels ++ [⟨object, conn, frame, s.meant object conn frame⟩] }

/-- `Session::close` cancels all that is outstanding. -/
def close (conn : Nat) (s : Node n ι Img Sql Row) : Node n ι Img Sql Row :=
  { s with
    outstanding := Function.update s.outstanding conn ∅
    cancels := s.cancels ++ (s.outstanding conn).entries.map fun entry =>
      ⟨entry.2, conn, entry.1, s.meant entry.2 conn entry.1⟩
    closed := conn :: s.closed }

/-- `cancel_poll`. -/
def send (e : NodeEnv n ι) (i : Nat) (s : Node n ι Img Sql Row) : Node n ι Img Sql Row :=
  match s.cancels[i]? with
  | none => s
  | some c =>
    { s with
      cancels := s.cancels.eraseIdx i
      addressed := s.addressed ++ c.meant.map fun resp => (resp, e.owner c.object) }.post e
        c.object (.cancelPoll c)

variable (site : Site ι Img Sql Row)

/-- A worker handles the next message of its channel. -/
def handle (e : NodeEnv n ι) (w : Fin n) (txn : Nat) (s : Node n ι Img Sql Row) :
    Node n ι Img Sql Row :=
  let h := s.workers w
  if h.alive then
    let s := s.update w (h.receive site e.env s.calls txn)
    match h.mailbox with
    | .cancelPoll c :: _ => { s with cancelled := s.cancelled ++ c.meant }
    | _ => s
  else s

/-- A poll transaction gets its turn. -/
def run (e : NodeEnv n ι) (w : Fin n) (i : Nat) (s : Node n ι Img Sql Row) :
    Node n ι Img Sql Row :=
  let h := s.workers w
  match h.waiting[i]? with
  | none => s
  | some t =>
    if h.alive then
      s.update w ({ h with waiting := h.waiting.eraseIdx i }.step site e.env (.run t))
    else s

/-- A poll transaction fails to acquire its object. -/
def giveUp (w : Fin n) (i : Nat) (s : Node n ι Img Sql Row) : Node n ι Img Sql Row :=
  let h := s.workers w
  s.update w { h with waiting := h.waiting.eraseIdx i }

/-- Whatever else a worker and its ship task do. -/
def work (e : NodeEnv n ι) (w : Fin n) (m : Move ι Img Sql) (s : Node n ι Img Sql Row) :
    Node n ι Img Sql Row :=
  match m with
  | .run t => if t.poll.isSome then s else s.update w ((s.workers w).step site e.env m)
  | .cancelPoll _ _ _ => s
  | _ => s.update w ((s.workers w).step site e.env m)

/-- A worker that is done, or has panicked, goes down with its channel and all that waits there. -/
def leave (w : Fin n) (s : Node n ι Img Sql Row) : Node n ι Img Sql Row :=
  let h := s.workers w
  if h.alive then s
  else s.update w { h with mailbox := [], waiting := [], worker := { h.worker with polls := [] } }

end Node

/-- One step of a node. Frames run at the same time, and a channel is a queue. -/
inductive SessionMove (n : Nat) (ι Img Sql : Type) where
  | poll (call : Call ι Sql)
  | submit (i : Nat)
  | reply (i : Nat)
  | cancel (conn frame : Nat)
  | close (conn : Nat)
  | send (i : Nat)
  | handle (w : Fin n) (txn : Nat)
  | run (w : Fin n) (i : Nat)
  | giveUp (w : Fin n) (i : Nat)
  | work (w : Fin n) (m : Move ι Img Sql)
  | leave (w : Fin n)

def Node.step (site : Site ι Img Sql Row) (s : Node n ι Img Sql Row)
    (m : SessionMove n ι Img Sql × NodeEnv n ι) : Node n ι Img Sql Row :=
  match m.1 with
  | .poll call => s.poll call
  | .submit i => s.submit m.2 i
  | .reply i => s.reply i
  | .cancel conn frame => s.cancel conn frame
  | .close conn => s.close conn
  | .send i => s.send m.2 i
  | .handle w txn => s.handle site m.2 w txn
  | .run w i => s.run site m.2 w i
  | .giveUp w i => s.giveUp w i
  | .work w move => s.work site m.2 w move
  | .leave w => s.leave w

/-- Workers that start on what the store holds. -/
def Node.boot (shelf : Fin n → Shelf ι Img) : Node n ι Img Sql Row where
  workers w := { worker := .boot (shelf w) }

end Fafo.Polls
