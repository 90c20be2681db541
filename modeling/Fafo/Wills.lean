import Mathlib.Logic.Function.Basic
import Fafo.Library.Runs
import Fafo.Routing

/-! Last wills: the rows of `_wills`, and the frames, closes, refreshes and sweeps that work on them
through system transactions. -/
namespace Fafo.Wills

open Submission

structure Will where
  objects : List String := []
  ops : List Op := []
  optimistic : Bool := false
  deriving DecidableEq, Repr

/-- `garbled` does not deserialize. -/
inductive Payload where
  | will (w : Will)
  | garbled
  deriving DecidableEq, Repr

/-- For the record: a frame or a close of a client, by its number. -/
structure Frame where
  client : Nat
  number : Nat
  deriving DecidableEq, Repr

/-- The client sent `b` later than `a`. -/
def Frame.Before (a b : Frame) : Prop := a.client = b.client ∧ a.number < b.number

/-- `arming` is the frame that armed the row; its number is 0 if the row was there before. -/
structure Row where
  deadline : Nat
  claimDeadline : Nat
  payload : Payload
  arming : Frame
  deriving DecidableEq, Repr

/-- `_wills` by session id. -/
abbrev Table := Blobs String Row

/-- What a sweep reads of a row. -/
structure Listed where
  session : String
  payload : Payload
  arming : Frame
  deriving DecidableEq, Repr

/-- For the record: on whose behalf a row is deleted. A close and a sweep have read an arming; a
close has fired its will, or has failed to. -/
inductive Deleter where
  | disarm (frame : Frame)
  | close (frame arming : Frame) (fired : Bool)
  | sweep (arming : Frame)
  deriving DecidableEq, Repr

/-- The system transactions on `_wills`, and the transaction of a will. -/
inductive Stmt where
  | arm (session : String) (deadline : Nat) (w : Will) (frame : Frame)
  | delete (session : String) (deleter : Deleter)
  | refresh (sessions : List String) (deadline : Nat)
  | list (now start : Nat)
  | claim (session : String) (now claimDeadline : Nat)
  | fire (w : Will) (arming : Frame)
  deriving DecidableEq, Repr

inductive Result where
  | affected (rows : Nat)
  | rows (rows : List Listed)
  deriving DecidableEq, Repr

def Row.lapsed (row : Row) (now : Nat) : Bool := row.deadline < now && row.claimDeadline < now

/-- `UPDATE wills SET deadline = .. WHERE session = ..`. -/
def Table.refresh (t : Table) (deadline : Nat) (session : String) : Table :=
  match t.lookup session with
  | some row => t.insert session { row with deadline }
  | none => t

def Table.lapsed (t : Table) (now : Nat) : List Listed :=
  ((t.keys.insertionSort (· ≤ ·)).filterMap fun session =>
    (t.lookup session).bind fun row =>
      if row.lapsed now then some ⟨session, row.payload, row.arming⟩ else none)

def exec (t : Table) : Stmt → Table × Result
  | .arm session deadline w frame => (t.insert session ⟨deadline, 0, .will w, frame⟩, .affected 1)
  | .delete session _ => (t.erase session, .affected (if session ∈ t then 1 else 0))
  | .refresh sessions deadline =>
    (sessions.foldl (fun t session => t.refresh deadline session) t,
      .affected (sessions.countP (· ∈ t)))
  | .list now _ => (t, .rows (t.lapsed now))
  | .claim session now claimDeadline =>
    match t.lookup session with
    | some row =>
      if row.lapsed now then (t.insert session { row with claimDeadline }, .affected 1)
      else (t, .affected 0)
    | none => (t, .affected 0)
  | .fire _ _ => (t, .affected 0)

/-- `armed` is `armed_wills`, each session once; `start` sets the tag. -/
structure Node where
  armed : List String := []
  tag : Option String := none
  up : Bool := true
  durableWills : Bool := true
  willTtl : Nat := 60000

/-- The id is made out anew each time, from the tag of the moment. -/
def willSessionId (tag : Option String) (conn : Nat) : String :=
  tag.getD "boot" ++ "-" ++ toString conn

/-- A client's connection: its node and its number there. The will comes with the frame that armed
it. -/
structure Session where
  node : Nat
  conn : Nat
  will : Option (Will × Frame) := none

/-- What a task waits for: the answer to a frame's transaction, to a close's, or to a sweep's. -/
inductive Job where
  | idle
  | arming (session : String) (frame : Frame) (w : Will)
  | disarming (frame : Frame)
  | closing (frame arming : Frame)
  | retiring (frame : Frame) (fired : Bool)
  | listing (start now ttl : Nat)
  | claiming (start now ttl : Nat) (row : Listed) (todo : List Listed)
  | firing (start now ttl : Nat) (row : Listed) (todo : List Listed)
  | consuming (start now ttl : Nat) (todo : List Listed)
  | ended

def Job.isIdle : Job → Bool
  | idle => true
  | _ => false

structure Task where
  node : Nat := 0
  stmt : Nat := 0
  job : Job := .idle

/-- A transaction that was submitted; it may take effect at any time, and again. -/
structure Flight where
  id : Nat
  stmt : Stmt
  result : Option Result := none

/-- For the record: `clock` counts frames, closes and sweeps; `told` are the frames answered
"armed" with a durable will, `committed` the armings whose will has committed, `released` the
armings taken out of the table by a frame, `wiped` the disarms, and the closes that fired, that
have deleted, `retired` when a client was told that its will is gone, and `fires` what each sweep
fired. -/
structure State where
  table : Table
  nodes : Nat → Node
  sessions : Nat → Session
  tasks : Nat → Task := fun _ => {}
  flight : List Flight := []
  nextStmt : Nat := 0
  clock : Nat := 0
  told : List Frame := []
  committed : List Frame := []
  released : List (Frame × Frame) := []
  wiped : List Frame := []
  retired : List (Frame × Nat) := []
  fires : List (String × Frame × Nat) := []

/-- A session's row: what it holds and which frame armed it. -/
def carried (t : Table) (session : String) : Option (Payload × Frame) :=
  (t.lookup session).map fun row => (row.payload, row.arming)

namespace State

/-- `submit_system`, or `submit_as` for a will: the task waits for the answer. -/
def issue (s : State) (i n : Nat) (job : Job) (stmt : Stmt) : State :=
  { s with
    tasks := Function.update s.tasks i ⟨n, s.nextStmt, job⟩
    flight := ⟨s.nextStmt, stmt, none⟩ :: s.flight
    nextStmt := s.nextStmt + 1 }

def endTask (s : State) (i : Nat) : State :=
  { s with tasks := Function.update s.tasks i { s.tasks i with job := .ended } }

/-- The session id of a client's connection, as of now. -/
def session (s : State) (c : Nat) : String :=
  willSessionId (s.nodes (s.sessions c).node).tag (s.sessions c).conn

def setWill (s : State) (c : Nat) (will : Option (Will × Frame)) : State :=
  { s with sessions := Function.update s.sessions c { s.sessions c with will } }

def setArmed (s : State) (n : Nat) (armed : List String) : State :=
  { s with nodes := Function.update s.nodes n { s.nodes n with armed } }

def tick (s : State) : State := { s with clock := s.clock + 1 }

/-- `handle_ws_frame` with a will; without ops it disarms. -/
def frame (s : State) (i c : Nat) (w : Will) (now : Nat) (allowed : Bool) : State :=
  let n := (s.sessions c).node
  let session := s.session c
  let frame : Frame := ⟨c, s.clock + 1⟩
  if w.ops = [] then
    ((s.tick.setWill c none).setArmed n ((s.nodes n).armed.erase session)).issue i n
      (.disarming frame) (.delete session (.disarm frame))
  else
    let objects := if w.objects = [] then w.ops.map Op.object else w.objects
    match validateTxn objects w.ops with
    | .error _ => s.tick
    | .ok ids =>
      if !allowed then s.tick
      else if (s.nodes n).durableWills then
        s.tick.issue i n (.arming session frame { w with objects := ids })
          (.arm session (now + (s.nodes n).willTtl) { w with objects := ids } frame)
      else s.tick.setWill c (some ({ w with objects := ids }, frame))

/-- `Session::close`. -/
def close (s : State) (i c : Nat) : State :=
  match (s.sessions c).will with
  | none => s
  | some (w, arming) =>
    (s.tick.setWill c none).issue i (s.sessions c).node (.closing ⟨c, s.clock + 1⟩ arming)
      (.fire w arming)

def sweep (s : State) (i n now ttl : Nat) : State :=
  s.tick.issue i n (.listing (s.clock + 1) now ttl) (.list now (s.clock + 1))

/-- The refresher does not wait for an answer. -/
def refresh (s : State) (n deadline : Nat) : State :=
  if (s.nodes n).armed = [] then s else
    { s with
      flight := ⟨s.nextStmt, .refresh (s.nodes n).armed deadline, none⟩ :: s.flight
      nextStmt := s.nextStmt + 1 }

/-- The sweep claims its next row. -/
def nextRow (s : State) (i n start now ttl : Nat) (todo : List Listed) : State :=
  match todo with
  | [] => s.endTask i
  | row :: todo =>
    s.issue i n (.claiming start now ttl row todo) (.claim row.session now (now + ttl))

/-- A sweep fires a will; a row that does not parse is consumed. -/
def fireRow (s : State) (i n start now ttl : Nat) (row : Listed) (todo : List Listed) : State :=
  match row.payload with
  | .garbled =>
    s.issue i n (.consuming start now ttl todo) (.delete row.session (.sweep row.arming))
  | .will w =>
    { s.issue i n (.firing start now ttl row todo) (.fire w row.arming) with
      fires := (row.session, row.arming, start) :: s.fires }

/-- The task's transaction comes back, with an error if there is no result. -/
def resume (s : State) (i : Nat) (result : Option Result) : State :=
  let n := (s.tasks i).node
  match (s.tasks i).job with
  | .arming session frame w =>
    match result with
    | none => s.endTask i
    | some _ =>
      { ((s.setArmed n ((s.nodes n).armed.insert session)).setWill frame.client
          (some (w, frame))).endTask i with
        told := frame :: s.told }
  | .disarming frame =>
    { s.tick.endTask i with retired := (frame, s.clock + 1) :: s.retired }
  | .closing frame arming =>
    let session := s.session frame.client
    (s.setArmed n ((s.nodes n).armed.erase session)).issue i n (.retiring frame result.isSome)
      (.delete session (.close frame arming result.isSome))
  | .retiring frame fired =>
    if fired then { s.tick.endTask i with retired := (frame, s.clock + 1) :: s.retired }
    else s.endTask i
  | .listing start now ttl =>
    match result with
    | some (.rows rows) => s.nextRow i n start now ttl rows
    | _ => s.endTask i
  | .claiming start now ttl row todo =>
    if result = some (.affected 0) then s.nextRow i n start now ttl todo
    else s.fireRow i n start now ttl row todo
  | .firing start now ttl row todo =>
    match result with
    | some _ =>
      s.issue i n (.consuming start now ttl todo) (.delete row.session (.sweep row.arming))
    | none => s.nextRow i n start now ttl todo
  | .consuming start now ttl todo => s.nextRow i n start now ttl todo
  | .idle | .ended => s

/-- The answer to the task's transaction, if it has taken effect. -/
def answered (s : State) (i k : Nat) : State :=
  match s.flight[k]? with
  | some f =>
    if f.id = (s.tasks i).stmt ∧ f.result.isSome then s.resume i f.result else s
  | none => s

/-- What is put on record when a transaction takes effect. -/
def record (s : State) : Stmt → State
  | .arm c _ _ frame =>
    match carried s.table c with
    | some (_, arming) => { s with released := (arming, frame) :: s.released }
    | none => s
  | .delete c (.disarm frame) =>
    let s := { s with wiped := frame :: s.wiped }
    match carried s.table c with
    | some (_, arming) => { s with released := (arming, frame) :: s.released }
    | none => s
  | .delete _ (.close frame _ true) => { s with wiped := frame :: s.wiped }
  | .fire _ arming => { s with committed := arming :: s.committed }
  | _ => s

/-- The `k`-th transaction takes effect. -/
def apply (s : State) (k : Nat) : State :=
  match s.flight[k]? with
  | some f =>
    { s.record f.stmt with
      table := (exec s.table f.stmt).1
      flight := s.flight.set k { f with result := some (exec s.table f.stmt).2 } }
  | none => s

/-- `start` sets the tag, once. -/
def name (s : State) (n : Nat) (tag : String) : State :=
  { s with
    nodes := Function.update s.nodes n { s.nodes n with tag := (s.nodes n).tag.or (some tag) } }

/-- A node dies with its tasks and its memory. -/
def crash (s : State) (n : Nat) : State :=
  { s with
    nodes := Function.update s.nodes n { s.nodes n with up := false }
    tasks := fun i =>
      if (s.tasks i).node = n ∧ (s.tasks i).job.isIdle = false then { s.tasks i with job := .ended }
      else s.tasks i }

end State

inductive Move where
  | frame (i c : Nat) (w : Will) (now : Nat) (allowed : Bool)
  | close (i c : Nat)
  | sweep (i n now ttl : Nat)
  | refresh (n deadline : Nat)
  | apply (k : Nat)
  | answer (i k : Nat)
  | fail (i : Nat)
  | name (n : Nat) (tag : String)
  | crash (n : Nat)

/-- A frame, a close or a sweep begins as a new task, at a node that is up. -/
def State.step (s : State) : Move → State
  | .frame i c w now allowed =>
    if (s.tasks i).job.isIdle && (s.nodes (s.sessions c).node).up then s.frame i c w now allowed
    else s
  | .close i c =>
    if (s.tasks i).job.isIdle && (s.nodes (s.sessions c).node).up then s.close i c else s
  | .sweep i n now ttl =>
    if (s.tasks i).job.isIdle && (s.nodes n).up then s.sweep i n now ttl else s
  | .refresh n deadline => if (s.nodes n).up then s.refresh n deadline else s
  | .apply k => s.apply k
  | .answer i k => s.answered i k
  | .fail i => s.resume i none
  | .name n tag => if (s.nodes n).up then s.name n tag else s
  | .crash n => s.crash n

/-- No task has begun. The nodes and the numbers of the connections are given. -/
def start (table : Table) (nodes : Nat → Node) (homes conns : Nat → Nat) : State where
  table
  nodes
  sessions c := { node := homes c, conn := conns c }

/-- Nodes that have been named. -/
def named (n : Nat) : Node := { tag := some ("27c03b26b" ++ toString n) }

theorem carried_refresh (t : Table) (deadline : Nat) (session c : String) :
    carried (t.refresh deadline session) c = carried t c := by
  unfold Table.refresh
  cases hrow : t.lookup session with
  | none => rfl
  | some row =>
    by_cases hc : c = session
    · subst hc
      simp [carried, hrow]
    · simp [carried, AList.lookup_insert_ne hc]

/-- Only an arm and a delete touch what a row carries. -/
theorem carried_exec (t : Table) (stmt : Stmt) (c : String) :
    carried (exec t stmt).1 c = match stmt with
      | .arm session _ w frame => if c = session then some (.will w, frame) else carried t c
      | .delete session _ => if c = session then none else carried t c
      | _ => carried t c := by
  cases stmt with
  | arm session deadline w frame =>
    by_cases hc : c = session
    · subst hc
      simp [exec, carried]
    · simp [exec, carried, hc]
  | delete session deleter =>
    by_cases hc : c = session
    · subst hc
      simp [exec, carried]
    · simp [exec, carried, hc, AList.lookup_erase_ne]
  | refresh sessions deadline =>
    change carried (sessions.foldl (fun t session => t.refresh deadline session) t) c = _
    induction sessions generalizing t with
    | nil => rfl
    | cons session sessions ih => rw [List.foldl_cons, ih, carried_refresh]
  | list => rfl
  | claim session now claimDeadline =>
    simp only [exec]
    cases hrow : t.lookup session with
    | none => rfl
    | some row =>
      dsimp only
      split_ifs
      · by_cases hc : c = session
        · subst hc
          simp [carried, hrow]
        · simp [carried, AList.lookup_insert_ne hc]
      · rfl
  | fire => rfl

/-- A listed row is in the table. -/
theorem carried_of_lapsed {t : Table} {now : Nat} {x : Listed} (h : x ∈ t.lapsed now) :
    carried t x.session = some (x.payload, x.arming) := by
  obtain ⟨session, _, hx⟩ := List.mem_filterMap.mp h
  obtain ⟨row, hrow, hx⟩ := Option.bind_eq_some_iff.mp hx
  split_ifs at hx
  obtain rfl := Option.some.inj hx
  simp [carried, hrow]

theorem record_frame (s : State) (stmt : Stmt) :
    (s.record stmt).tasks = s.tasks ∧ (s.record stmt).nextStmt = s.nextStmt ∧
      (s.record stmt).clock = s.clock ∧ (s.record stmt).told = s.told ∧
      (s.record stmt).retired = s.retired ∧ (s.record stmt).fires = s.fires := by
  unfold State.record
  dsimp only
  split
  · split <;> exact ⟨rfl, rfl, rfl, rfl, rfl, rfl⟩
  · split <;> exact ⟨rfl, rfl, rfl, rfl, rfl, rfl⟩
  · exact ⟨rfl, rfl, rfl, rfl, rfl, rfl⟩
  · exact ⟨rfl, rfl, rfl, rfl, rfl, rfl⟩
  · exact ⟨rfl, rfl, rfl, rfl, rfl, rfl⟩

theorem apply_eq {s : State} {k : Nat} {f : Flight} (hf : s.flight[k]? = some f) :
    s.apply k = { s.record f.stmt with
      table := (exec s.table f.stmt).1
      flight := s.flight.set k { f with result := some (exec s.table f.stmt).2 } } := by
  simp [State.apply, hf]

/-- What a frame can do. -/
theorem frame_cases (s : State) (i c : Nat) (w : Will) (now : Nat) (allowed : Bool) :
    s.frame i c w now allowed = s.tick ∨
    (∃ armed, s.frame i c w now allowed =
      ((s.tick.setWill c none).setArmed (s.sessions c).node armed).issue i (s.sessions c).node
        (.disarming ⟨c, s.clock + 1⟩) (.delete (s.session c) (.disarm ⟨c, s.clock + 1⟩))) ∨
    (∃ will deadline, s.frame i c w now allowed =
      s.tick.issue i (s.sessions c).node (.arming (s.session c) ⟨c, s.clock + 1⟩ will)
        (.arm (s.session c) deadline will ⟨c, s.clock + 1⟩)) ∨
    ∃ will, s.frame i c w now allowed = s.tick.setWill c (some (will, ⟨c, s.clock + 1⟩)) := by
  unfold State.frame
  dsimp only
  by_cases hops : w.ops = []
  · rw [if_pos hops]
    exact .inr (.inl ⟨_, rfl⟩)
  · rw [if_neg hops]
    cases validateTxn (if w.objects = [] then w.ops.map Op.object else w.objects) w.ops with
    | error e => exact .inl rfl
    | ok ids =>
      dsimp only
      split_ifs
      · exact .inl rfl
      · exact .inr (.inr (.inl ⟨_, _, rfl⟩))
      · exact .inr (.inr (.inr ⟨_, rfl⟩))

/-- The transaction that a task waits for. -/
def Job.Awaits : Job → Stmt → Prop
  | .arming session frame w, stmt => ∃ deadline, stmt = .arm session deadline w frame
  | .disarming frame, stmt => ∃ session, stmt = .delete session (.disarm frame)
  | .closing _ read, stmt => ∃ w, stmt = .fire w read
  | .retiring frame fired, stmt => ∃ session read, stmt = .delete session (.close frame read fired)
  | .listing start now _, stmt => stmt = .list now start
  | .firing _ _ _ row _, stmt => ∃ w, row.payload = .will w ∧ stmt = .fire w row.arming
  | _, _ => True

/-- Every task waits for its own transaction; `F` holds of the transactions and their results, and
`J` of what the tasks have in hand. -/
structure Tracks (F : Stmt → Option Result → Prop) (J : Job → Prop) (s : State) : Prop where
  ids : ∀ f ∈ s.flight, f.id < s.nextStmt
  waits : ∀ i, (s.tasks i).stmt < s.nextStmt ∨ ∀ stmt, (s.tasks i).job.Awaits stmt
  awaited : ∀ i, ∀ f ∈ s.flight, f.id = (s.tasks i).stmt → (s.tasks i).job.Awaits f.stmt
  flights : ∀ f ∈ s.flight, F f.stmt f.result
  jobs : ∀ i, J (s.tasks i).job

variable {F F' : Stmt → Option Result → Prop} {J J' : Job → Prop} {s s' : State}

theorem Tracks.mono (h : Tracks F J s) (hF : ∀ stmt result, F stmt result → F' stmt result)
    (hJ : ∀ job, J job → J' job) : Tracks F' J' s :=
  { h with
    flights := fun f hf => hF _ _ (h.flights f hf)
    jobs := fun i => hJ _ (h.jobs i) }

theorem Tracks.congr (h : Tracks F J s) (hflight : s'.flight = s.flight)
    (htasks : s'.tasks = s.tasks) (hnext : s'.nextStmt = s.nextStmt) : Tracks F J s' := by
  refine ⟨?_, ?_, ?_, ?_, ?_⟩
  · simpa only [hflight, hnext] using h.ids
  · simpa only [htasks, hnext] using h.waits
  · simpa only [hflight, htasks] using h.awaited
  · simpa only [hflight] using h.flights
  · simpa only [htasks] using h.jobs

theorem Tracks.push (h : Tracks F J s) {stmt : Stmt} (hF : F stmt none) :
    Tracks F J { s with
      flight := ⟨s.nextStmt, stmt, none⟩ :: s.flight
      nextStmt := s.nextStmt + 1 } := by
  refine ⟨fun f hf => ?_, fun i => ?_, fun i f hf hid => ?_, fun f hf => ?_, h.jobs⟩
  · rcases List.mem_cons.mp hf with rfl | hf
    · exact Nat.lt_succ_self _
    · exact Nat.lt_succ_of_lt (h.ids f hf)
  · exact (h.waits i).imp_left Nat.lt_succ_of_lt
  · rcases List.mem_cons.mp hf with rfl | hf
    · rcases h.waits i with hlt | hany
      · dsimp only at hid hlt
        omega
      · exact hany stmt
    · exact h.awaited i f hf hid
  · rcases List.mem_cons.mp hf with rfl | hf
    · exact hF
    · exact h.flights f hf

theorem Tracks.issue (h : Tracks F J s) {i n : Nat} {job : Job} {stmt : Stmt} (hF : F stmt none)
    (hJ : J job) (hawaits : job.Awaits stmt) : Tracks F J (s.issue i n job stmt) := by
  have hpush := h.push hF
  have htask : ∀ j, (s.issue i n job stmt).tasks j =
      if j = i then ⟨n, s.nextStmt, job⟩ else s.tasks j := fun j => by
    by_cases hj : j = i
    · subst hj
      simp [State.issue]
    · simp [State.issue, hj]
  refine ⟨hpush.ids, fun j => ?_, fun j f hf hid => ?_, hpush.flights, fun j => ?_⟩
  · rw [htask]
    split_ifs
    · exact .inl (Nat.lt_succ_self _)
    · exact hpush.waits j
  · rw [htask] at hid ⊢
    split_ifs at hid ⊢
    · rcases List.mem_cons.mp hf with rfl | hf
      · exact hawaits
      · have hlt := h.ids f hf
        dsimp only at hid
        omega
    · exact hpush.awaited j f hf hid
  · rw [htask]
    split_ifs
    · exact hJ
    · exact h.jobs j

/-- Some tasks end. -/
theorem Tracks.ends (h : Tracks F J s) (hJ : J .ended) {tasks : Nat → Task}
    (htasks : ∀ j, tasks j = s.tasks j ∨ (tasks j).job = .ended) :
    Tracks F J { s with tasks } := by
  have hended : ∀ j, (tasks j).job = .ended → ∀ stmt, (tasks j).job.Awaits stmt :=
    fun j hj stmt => by
      rw [hj]
      trivial
  refine ⟨h.ids, fun j => ?_, fun j f hf hid => ?_, h.flights, fun j => ?_⟩
  · rcases htasks j with hj | hj
    · simpa only [hj] using h.waits j
    · exact .inr (hended j hj)
  · rcases htasks j with hj | hj
    · simp only [hj] at hid ⊢
      exact h.awaited j f hf hid
    · exact hended j hj f.stmt
  · rcases htasks j with hj | hj
    · simpa only [hj] using h.jobs j
    · simpa only [hj] using hJ

theorem Tracks.endTask (h : Tracks F J s) (hJ : J .ended) (i : Nat) : Tracks F J (s.endTask i) := by
  refine h.ends hJ fun j => ?_
  by_cases hj : j = i
  · subst hj
    simp
  · simp [hj]

theorem Tracks.crash (h : Tracks F J s) (hJ : J .ended) (n : Nat) : Tracks F J (s.crash n) := by
  have hends : Tracks F J { s with
      tasks := fun i =>
        if (s.tasks i).node = n ∧ (s.tasks i).job.isIdle = false then
          { s.tasks i with job := .ended }
        else s.tasks i } := h.ends hJ fun j => by
    split_ifs
    · exact .inr rfl
    · exact .inl rfl
  exact hends.congr rfl rfl rfl

/-- A transaction takes effect. -/
theorem Tracks.apply (h : Tracks F J s) {k : Nat} {f : Flight} (hf : s.flight[k]? = some f)
    (hF : F f.stmt (some (exec s.table f.stmt).2)) : Tracks F J (s.apply k) := by
  obtain ⟨htasks, hnext, -⟩ := record_frame s f.stmt
  have hmem : f ∈ s.flight := List.mem_of_getElem? hf
  have hresult : Tracks F J { s with
      flight := s.flight.set k { f with result := some (exec s.table f.stmt).2 } } := by
    refine ⟨fun g hg => ?_, h.waits, fun i g hg hid => ?_, fun g hg => ?_, h.jobs⟩
    · rcases List.mem_or_eq_of_mem_set hg with hg | rfl
      · exact h.ids g hg
      · exact h.ids f hmem
    · rcases List.mem_or_eq_of_mem_set hg with hg | rfl
      · exact h.awaited i g hg hid
      · exact h.awaited i f hmem hid
    · rcases List.mem_or_eq_of_mem_set hg with hg | rfl
      · exact h.flights g hg
      · exact hF
  rw [apply_eq hf]
  exact hresult.congr rfl htasks hnext

theorem tracks_initial (table : Table) (nodes : Nat → Node) (homes conns : Nat → Nat)
    (hJ : J .idle) : Tracks F J (start table nodes homes conns) :=
  ⟨nofun, fun _ => .inr fun _ => by simp [start, Job.Awaits], nofun, nofun, fun _ => hJ⟩

end Fafo.Wills
