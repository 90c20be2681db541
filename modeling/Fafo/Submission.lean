import Mathlib.Data.List.Count
import Mathlib.Data.List.Perm.Subperm
import Fafo.Library.Runs
import Fafo.Routing

/-! Calls of `submit_as` across the cluster: how often one call's ops are run. -/
namespace Fafo.Submission

/-- How a call hands its transaction over: to a worker of its own node, or to the node at an
address. -/
inductive Via where
  | direct
  | forward (addr : String)
  deriving DecidableEq, Repr

/-- One handing over of one call. -/
abbrev Ticket := Nat × Via

/-- Where a transaction that was handed over stands. -/
inductive Place where
  | wire (addr : String)
  | inbox (node worker : Nat)
  | parked (node worker txn : Nat)
  deriving DecidableEq, Repr

def Place.node : Place → Option Nat
  | wire _ => none
  | inbox n _ | parked n _ _ => some n

structure Pending where
  place : Place
  ticket : Ticket
  txn : Txn

inductive Phase where
  | idle
  | awaiting
  | resolving (target : Nat)
  | forwarding (target : Nat) (addr : String)
  | rereading (target : Nat) (addr : String) (e : ApiError)
  | retrying (addr : String)
  | reading
  | done (outcome : Outcome)
  | gone

/-- One call of `submit_as`. For the record: how it handed its transaction over, newest first, and
the error for which it retried. -/
structure Call where
  node : Nat := 0
  txn : Txn := {}
  phase : Phase := .idle
  sends : List Via := []
  failure : Option ApiError := none

/-- One run of a node process; `spawned` are the workers with a task. -/
structure Node where
  address : String
  routing : Routing
  epochs : List Nat
  spawned : List Nat := []
  nextTxn : Nat → Nat := fun _ => 0
  up : Bool := true

/-- `leases` has the address in each block's latest lease. For the record: what has been run. -/
structure State where
  nodes : Nat → Node
  leases : Nat → Option String
  calls : Nat → Call := fun _ => {}
  pending : List Pending := []
  answers : List (Ticket × Outcome) := []
  applied : List Ticket := []

def Node.ownsWorker (n : Node) (worker : Nat) : Bool :=
  decide (n.routing.block worker ∈ n.epochs)

/-- The node with a task for the worker, unless it is not the worker's or cannot be spawned. -/
def Node.localSender (n : Node) (worker : Nat) (spawns : Bool) : Option Node :=
  if worker ∈ n.spawned then some n
  else if n.ownsWorker worker && spawns then some { n with spawned := worker :: n.spawned }
  else none

namespace State

def setNode (s : State) (n : Nat) (node : Node) : State :=
  { s with nodes := Function.update s.nodes n node }

def setCall (s : State) (k : Nat) (call : Call) : State :=
  { s with calls := Function.update s.calls k call }

def setPhase (s : State) (k : Nat) (phase : Phase) : State :=
  s.setCall k { s.calls k with phase }

/-- A call hands its transaction over. -/
def send (s : State) (k : Nat) (call : Call) (phase : Phase) (via : Via) (place : Place) : State :=
  { s.setCall k { call with phase, sends := via :: call.sends } with
    pending := ⟨place, (k, via), call.txn⟩ :: s.pending }

def forward (s : State) (k : Nat) (call : Call) (phase : Phase) (addr : String) : State :=
  s.send k call phase (.forward addr) (.wire addr)

/-- `resolve_addr`: the latest lease's address, which goes into the routing hints. -/
def resolveAddr (s : State) (n target : Nat) (fault : Fault) : Option String × State :=
  let node := s.nodes n
  let block := node.routing.block target
  if fault ≠ .none then (none, s) else
  match s.leases block with
  | none => (none, s)
  | some addr => (some addr, s.setNode n
      { node with routing := { node.routing with addrs := node.routing.addrs.insert block addr } })

/-- How `submit_routed` ends after a forward, or without an address: a read goes to the log. -/
def conclude (s : State) (k : Nat) (outcome : Outcome) : State :=
  match outcome with
  | .ok _ => s.setPhase k (.done outcome)
  | .error _ => s.setPhase k (if (s.calls k).txn.readOnly then .reading else .done outcome)

def noHolder (target : Nat) : ApiError :=
  .internal ("no live node holds logical worker " ++ toString target)

/-- `submit_routed`, up to where it waits for an answer or for the lease. -/
def submitRouted (s : State) (k n : Nat) (txn : Txn) (spawns : Bool) : State :=
  let node := s.nodes n
  match node.routing.pluralityTarget txn.ids with
  | none => s
  | some target =>
    match node.localSender target spawns with
    | some node' =>
      (s.setNode n node').send k { node := n, txn } .awaiting .direct (.inbox n target)
    | none =>
      match node.routing.addrOfWorker target with
      | some addr => s.forward k { node := n, txn } (.forwarding target addr) addr
      | none => s.setCall k { node := n, txn, phase := .resolving target }

def submitAs (s : State) (k n : Nat) (objects : List String) (ops : List Op)
    (readOnly optimistic spawns : Bool) : State :=
  match validateTxn objects ops with
  | .error e => s.setCall k { node := n, phase := .done (.error e) }
  | .ok ids => s.submitRouted k n { ids, ops, readOnly, optimistic } spawns

/-- The lease has been read, for the first time or again. -/
def resolved (s : State) (k : Nat) (fault : Fault) : State :=
  let call := s.calls k
  match call.phase with
  | .resolving target =>
    match s.resolveAddr call.node target fault with
    | (some addr, s) => s.forward k call (.forwarding target addr) addr
    | (none, s) => s.conclude k (.error (noHolder target))
  | .rereading target addr e =>
    match s.resolveAddr call.node target fault with
    | (some fresh, s) =>
      if fresh ≠ addr then s.forward k call (.retrying fresh) fresh else s.conclude k (.error e)
    | (none, s) => s.conclude k (.error e)
  | _ => s

/-- A forward has come back: after a failure of the transport the lease is read again. -/
def returned (s : State) (k : Nat) (result : Except String Response) : State :=
  let call := s.calls k
  match call.phase with
  | .forwarding target addr =>
    match forwardTxn addr result with
    | .error e =>
      if e.ofTransport then
        s.setCall k { call with phase := .rereading target addr e, failure := some e }
      else s.conclude k (.error e)
    | .ok r => s.conclude k (.ok r)
  | .retrying addr => s.conclude k (forwardTxn addr result)
  | _ => s

/-- An answer reaches the call, if that still waits for it. -/
def answered (s : State) (k i : Nat) : State :=
  match s.answers[i]?, (s.calls k).phase with
  | some ((k', .direct), outcome), .awaiting =>
    if k' = k then s.setPhase k (.done outcome) else s
  | some ((k', .forward dest), outcome), .forwarding _ addr
  | some ((k', .forward dest), outcome), .retrying addr =>
    if k' = k ∧ dest = addr then s.returned k (.ok (.txn outcome)) else s
  | _, _ => s

def answer (s : State) (ticket : Ticket) (outcome : Outcome) : State :=
  { s with answers := (ticket, outcome) :: s.answers }

/-- The `i`-th pending transaction moves on, -/
def move (s : State) (i : Nat) (p : Pending) (place : Place) : State :=
  { s with pending := { p with place } :: s.pending.eraseIdx i }

/-- or is there no more. -/
def drop (s : State) (i : Nat) : State := { s with pending := s.pending.eraseIdx i }

/-- `submit_received` at a node that listens at the address. -/
def submitReceived (s : State) (i n : Nat) (p : Pending) (spawns : Bool) : State :=
  let node := s.nodes n
  match node.routing.pluralityTarget p.txn.ids with
  | none => s.drop i
  | some preferred =>
    match node.localSender preferred spawns with
    | some node' => (s.setNode n node').move i p (.inbox n preferred)
    | none =>
      let fallback := do
        let block ← node.epochs.min?
        let start := blockStart block node.routing.logical node.routing.blocks
        return (start, ← node.localSender start spawns)
      match fallback with
      | some (start, node') => (s.setNode n node').move i p (.inbox n start)
      | none => (s.drop i).answer p.ticket
          (.error (.internal "no local worker to coordinate a received transaction"))

/-- What happens to the `i`-th pending transaction: it is delivered, -/
def deliver (s : State) (i n : Nat) (spawns : Bool) : State :=
  match s.pending[i]? with
  | some p =>
    match p.place with
    | .wire addr =>
      if (s.nodes n).address = addr ∧ (s.nodes n).up then s.submitReceived i n p spawns else s
    | _ => s
  | none => s

/-- lost, -/
def lose (s : State) (i : Nat) : State :=
  match s.pending[i]? with
  | some ⟨.wire _, _, _⟩ => s.drop i
  | _ => s

/-- parked by its worker, -/
def handle (s : State) (i : Nat) : State :=
  match s.pending[i]? with
  | some p =>
    match p.place with
    | .inbox n worker =>
      let node := s.nodes n
      let txn := node.nextTxn worker
      (s.setNode n { node with nextTxn := Function.update node.nextTxn worker (txn + 1) }).move i p
        (.parked n worker txn)
    | _ => s
  | none => s

/-- run, -/
def runAndComplete (s : State) (i : Nat) (result : Except ApiError Unit) : State :=
  match s.pending[i]? with
  | some p =>
    match p.place with
    | .parked _ worker txn =>
      { (s.drop i).answer p.ticket
          (result.map fun _ => ⟨"w" ++ toString worker ++ "-" ++ toString txn⟩) with
        applied := p.ticket :: s.applied }
    | _ => s
  | none => s

/-- or it fails before it runs. -/
def failTxn (s : State) (i : Nat) (msg : String) : State :=
  match s.pending[i]? with
  | some p =>
    match p.place with
    | .parked .. =>
      (s.drop i).answer p.ticket (.error (.internal ("acquisition failed: " ++ msg)))
    | _ => s
  | none => s

/-- The worker's task ends with the transaction in its hands. -/
def discard (s : State) (i : Nat) : State :=
  match s.pending[i]? with
  | some p =>
    match p.place with
    | .wire _ => s
    | _ => (s.drop i).answer p.ticket (.error (.internal "transaction dropped"))
  | none => s

/-- A node goes down, with its workers and the calls it serves. -/
def crash (s : State) (n : Nat) : State :=
  { s.setNode n { s.nodes n with up := false } with
    calls := fun k => match (s.calls k).phase with
      | .idle => s.calls k
      | _ => if (s.calls k).node = n then { s.calls k with phase := .gone } else s.calls k
    pending := s.pending.filter fun p => p.place.node ≠ some n }

end State

inductive Move where
  | submit (k n : Nat) (objects : List String) (ops : List Op) (readOnly optimistic spawns : Bool)
  | resolve (k : Nat) (fault : Fault)
  | breakOff (k : Nat) (e : String)
  | answer (k i : Nat)
  | durableRead (k : Nat) (outcome : Outcome)
  | deliver (i n : Nat) (spawns : Bool)
  | lose (i : Nat)
  | handle (i : Nat)
  | run (i : Nat) (result : Except ApiError Unit)
  | fail (i : Nat) (msg : String)
  | discard (i : Nat)
  | crash (n : Nat)
  | route (n : Nat) (routing : Routing) (epochs : List Nat)
  | lease (block : Nat) (addr : Option String)

/-- A new call, what becomes of one, of a transaction that was handed over, of a node and of the
leases. -/
def State.step (s : State) : Move → State
  | .submit k n objects ops readOnly optimistic spawns =>
    match (s.calls k).phase with
    | .idle => if (s.nodes n).up then s.submitAs k n objects ops readOnly optimistic spawns else s
    | _ => s
  | .resolve k fault => s.resolved k fault
  | .breakOff k e => s.returned k (.error e)
  | .answer k i => s.answered k i
  | .durableRead k outcome =>
    match (s.calls k).phase with
    | .reading => s.setPhase k (.done outcome)
    | _ => s
  | .deliver i n spawns => s.deliver i n spawns
  | .lose i => s.lose i
  | .handle i => s.handle i
  | .run i result => s.runAndComplete i result
  | .fail i msg => s.failTxn i msg
  | .discard i => s.discard i
  | .crash n => s.crash n
  | .route n routing epochs => s.setNode n { s.nodes n with routing, epochs }
  | .lease block addr => { s with leases := Function.update s.leases block addr }

/-- The call went to a second address: the lease named another one after a forward to the first
had failed in the transport. -/
def Call.Retried (c : Call) : Prop :=
  ∃ addr fresh e, c.sends = [.forward fresh, .forward addr] ∧ fresh ≠ addr ∧
    c.failure = some e ∧ e.ofTransport = true

/-- How many times the call's ops have been run. -/
def State.executions (s : State) (k : Nat) : Nat := s.applied.countP fun ticket => ticket.1 = k

/-- A call is run at most once for each time it was handed over, and it was handed over once, or
twice after a failed forward. -/
structure OncePerSend (s : State) (k : Nat) : Prop where
  once : ∀ via, s.applied.count (k, via) ≤ 1
  sent : ∀ via, (k, via) ∈ s.applied → via ∈ (s.calls k).sends
  executions : s.executions k ≤ (s.calls k).sends.length
  sends : (s.calls k).sends.length ≤ 1 ∨ (s.calls k).Retried

/-- What has been handed over and not been lost. -/
def State.tickets (s : State) : List Ticket := s.pending.map Pending.ticket ++ s.applied

/-- How the call has handed its transaction over by its phase. -/
def Call.Fits (c : Call) : Prop :=
  match c.phase with
  | .idle | .resolving _ => c.sends = []
  | .awaiting => c.sends = [.direct]
  | .forwarding _ addr => c.sends = [.forward addr]
  | .rereading _ addr e =>
    c.sends = [.forward addr] ∧ c.failure = some e ∧ e.ofTransport = true
  | .retrying _ => c.Retried
  | .reading | .done _ | .gone => c.sends.length ≤ 1 ∨ c.Retried

theorem Call.Fits.sends {c : Call} (h : c.Fits) : c.sends.length ≤ 1 ∨ c.Retried := by
  unfold Call.Fits at h
  cases hphase : c.phase <;> simp only [hphase] at h
  case idle => simp [h]
  case awaiting => simp [h]
  case resolving => simp [h]
  case forwarding => simp [h]
  case rereading => simp [h.1]
  case retrying => exact .inr h
  all_goals exact h

structure Sound (s : State) : Prop where
  nodup : s.tickets.Nodup
  sent : ∀ ticket ∈ s.tickets, ticket.2 ∈ (s.calls ticket.1).sends
  fits : ∀ k, (s.calls k).Fits

theorem Sound.oncePerSend {s : State} (h : Sound s) (k : Nat) : OncePerSend s k := by
  have happlied : s.applied.Nodup := (List.nodup_append.mp h.nodup).2.1
  have hsent : ∀ via, (k, via) ∈ s.applied → via ∈ (s.calls k).sends := fun via hmem =>
    h.sent (k, via) (List.mem_append_right _ hmem)
  refine ⟨fun via => List.nodup_iff_count_le_one.mp happlied (k, via), hsent, ?_, (h.fits k).sends⟩
  -- the call's executions, told apart by how the transaction was handed over
  have hnodup : ((s.applied.filter fun ticket => ticket.1 = k).map Prod.snd).Nodup := by
    refine (happlied.filter _).map_on fun a ha b hb heq => ?_
    have hak := (List.mem_filter.mp ha).2
    have hbk := (List.mem_filter.mp hb).2
    simp only [decide_eq_true_eq] at hak hbk
    exact Prod.ext (hak.trans hbk.symm) heq
  have hsub : (s.applied.filter fun ticket => ticket.1 = k).map Prod.snd ⊆ (s.calls k).sends := by
    intro via hmem
    obtain ⟨⟨k', via'⟩, hticket, rfl⟩ := List.mem_map.mp hmem
    obtain ⟨hticket, hk⟩ := List.mem_filter.mp hticket
    simp only [decide_eq_true_eq] at hk
    exact hsent via' (hk ▸ hticket)
  have hle := (List.subperm_of_subset hnodup hsub).length_le
  rwa [List.length_map, ← List.countP_eq_length_filter] at hle

variable {s s' : State}

/-- Nothing is handed over, and at most something is lost. -/
theorem Sound.shrink (h : Sound s) (htickets : s'.tickets.Subperm s.tickets)
    (hcalls : s'.calls = s.calls) : Sound s' := by
  obtain ⟨l, hperm, hsub⟩ := htickets
  refine ⟨hperm.nodup_iff.mp (hsub.nodup h.nodup), fun ticket hmem => ?_, fun k => ?_⟩
  · rw [hcalls]
    exact h.sent ticket (hsub.subset (hperm.mem_iff.mpr hmem))
  · rw [hcalls]
    exact h.fits k

theorem Sound.same (h : Sound s) (hcalls : s'.calls = s.calls) (hpending : s'.pending = s.pending)
    (happlied : s'.applied = s.applied) : Sound s' :=
  h.shrink (by rw [State.tickets, hpending, happlied]; exact List.Subperm.refl _) hcalls

theorem Sound.setNode (h : Sound s) (n : Nat) (node : Node) : Sound (s.setNode n node) :=
  h.same rfl rfl rfl

/-- A call goes on without handing anything over. -/
theorem Sound.setCall (h : Sound s) {k : Nat} {call : Call}
    (hsends : call.sends = (s.calls k).sends)
    (hfits : call.Fits) : Sound (s.setCall k call) := by
  refine ⟨h.nodup, fun ticket hmem => ?_, fun k' => ?_⟩
  · by_cases hk : ticket.1 = k
    · simpa [State.setCall, hk, hsends] using hk ▸ h.sent ticket hmem
    · simpa [State.setCall, hk] using h.sent ticket hmem
  · by_cases hk : k' = k
    · simpa [State.setCall, hk] using hfits
    · simpa [State.setCall, hk] using h.fits k'

/-- A call hands its transaction over in a way it has not used before. -/
theorem Sound.send (h : Sound s) {k : Nat} {call : Call} {phase : Phase} {via : Via} {place : Place}
    (hsends : call.sends = (s.calls k).sends) (hnew : via ∉ call.sends)
    (hfits : Call.Fits { call with phase, sends := via :: call.sends }) :
    Sound (s.send k call phase via place) := by
  refine ⟨List.nodup_cons.mpr ⟨fun hmem => ?_, h.nodup⟩, fun ticket hmem => ?_, fun k' => ?_⟩
  · exact hnew (hsends ▸ h.sent (k, via) hmem)
  · rcases List.mem_cons.mp hmem with rfl | hmem
    · simp [State.send, State.setCall]
    · have hsent := h.sent ticket hmem
      by_cases hk : ticket.1 = k
      · rw [hk] at hsent
        simp [State.send, State.setCall, hk, hsends, hsent]
      · simpa [State.send, State.setCall, hk] using hsent
  · by_cases hk : k' = k
    · simpa [State.send, State.setCall, hk] using hfits
    · simpa [State.send, State.setCall, hk] using h.fits k'

/-- A call ends. -/
theorem Sound.setPhase (h : Sound s) {k : Nat} {phase : Phase}
    (hend : ∀ call : Call, call.sends.length ≤ 1 ∨ call.Retried → Call.Fits { call with phase }) :
    Sound (s.setPhase k phase) :=
  h.setCall rfl (hend _ (h.fits k).sends)

theorem Sound.conclude (h : Sound s) (k : Nat) (outcome : Outcome) :
    Sound (s.conclude k outcome) := by
  unfold State.conclude
  cases outcome with
  | ok r => exact h.setPhase fun _ hsends => hsends
  | error e =>
    dsimp only
    split_ifs
    · exact h.setPhase fun _ hsends => hsends
    · exact h.setPhase fun _ hsends => hsends

theorem Sound.resolveAddr (h : Sound s) (n target : Nat) (fault : Fault) :
    Sound (s.resolveAddr n target fault).2 ∧ (s.resolveAddr n target fault).2.calls = s.calls := by
  unfold State.resolveAddr
  dsimp only
  split_ifs
  · exact ⟨h, rfl⟩
  · cases s.leases ((s.nodes n).routing.block target) with
    | none => exact ⟨h, rfl⟩
    | some addr => exact ⟨h.setNode n _, rfl⟩

theorem sound_submitAs (h : Sound s) {k : Nat} (hidle : (s.calls k).sends = []) (n : Nat)
    (objects : List String) (ops : List Op) (readOnly optimistic spawns : Bool) :
    Sound (s.submitAs k n objects ops readOnly optimistic spawns) := by
  unfold State.submitAs
  cases validateTxn objects ops with
  | error e => exact h.setCall hidle.symm (.inl (Nat.zero_le _))
  | ok ids =>
    dsimp only
    unfold State.submitRouted
    dsimp only
    cases (s.nodes n).routing.pluralityTarget ids with
    | none => exact h
    | some target =>
      dsimp only
      cases (s.nodes n).localSender target spawns with
      | some node => exact (h.setNode n node).send hidle.symm List.not_mem_nil rfl
      | none =>
        dsimp only
        cases (s.nodes n).routing.addrOfWorker target with
        | some addr => exact h.send hidle.symm List.not_mem_nil rfl
        | none => exact h.setCall hidle.symm rfl

theorem sound_resolved (h : Sound s) (k : Nat) (fault : Fault) : Sound (s.resolved k fault) := by
  have hfits := h.fits k
  unfold State.resolved
  dsimp only
  cases hphase : (s.calls k).phase with
  | resolving target =>
    simp only [Call.Fits, hphase] at hfits
    obtain ⟨hs, hcalls⟩ := h.resolveAddr (s.calls k).node target fault
    dsimp only
    generalize s.resolveAddr (s.calls k).node target fault = lease at hs hcalls ⊢
    obtain ⟨_ | addr, s'⟩ := lease
    · exact hs.conclude k _
    · refine hs.send (by rw [hcalls]) (by simp [hfits]) ?_
      simp [Call.Fits, hfits]
  | rereading target addr e =>
    simp only [Call.Fits, hphase] at hfits
    obtain ⟨hsends, hfailure, htransport⟩ := hfits
    obtain ⟨hs, hcalls⟩ := h.resolveAddr (s.calls k).node target fault
    dsimp only
    generalize s.resolveAddr (s.calls k).node target fault = lease at hs hcalls ⊢
    obtain ⟨_ | fresh, s'⟩ := lease
    · exact hs.conclude k _
    · dsimp only
      split_ifs with hfresh
      · -- the second address is another one, so the ticket is new
        refine hs.send (by rw [hcalls]) (by simpa [hsends] using hfresh) ?_
        exact ⟨addr, fresh, e, by rw [hsends], hfresh, hfailure, htransport⟩
      · exact hs.conclude k _
  | _ => exact h

theorem sound_returned (h : Sound s) (k : Nat) (result : Except String Response) :
    Sound (s.returned k result) := by
  have hfits := h.fits k
  unfold State.returned
  dsimp only
  cases hphase : (s.calls k).phase with
  | forwarding target addr =>
    dsimp only
    cases forwardTxn addr result with
    | ok r => exact h.conclude k _
    | error e =>
      dsimp only
      split_ifs with htransport
      · simp only [Call.Fits, hphase] at hfits
        exact h.setCall rfl ⟨hfits, rfl, htransport⟩
      · exact h.conclude k _
  | retrying addr => exact h.conclude k _
  | _ => exact h

theorem sound_answered (h : Sound s) (k i : Nat) : Sound (s.answered k i) := by
  unfold State.answered
  split
  · split_ifs
    · exact h.setPhase fun _ hsends => hsends
    · exact h
  · split_ifs
    · exact sound_returned h k _
    · exact h
  · split_ifs
    · exact sound_returned h k _
    · exact h
  · exact h

theorem tickets_move {i : Nat} {p : Pending} (hp : s.pending[i]? = some p) (place : Place) :
    (s.move i p place).tickets.Perm s.tickets := by
  obtain ⟨hi, rfl⟩ := List.getElem?_eq_some_iff.mp hp
  exact ((List.getElem_cons_eraseIdx_perm hi).map Pending.ticket).append_right s.applied

theorem tickets_run {i : Nat} {p : Pending} (hp : s.pending[i]? = some p) :
    ((s.pending.eraseIdx i).map Pending.ticket ++ p.ticket :: s.applied).Perm s.tickets :=
  List.perm_middle.trans (tickets_move hp p.place)

theorem Sound.move (h : Sound s) {i : Nat} {p : Pending} (hp : s.pending[i]? = some p)
    (place : Place) : Sound (s.move i p place) := h.shrink (tickets_move hp place).subperm rfl

theorem Sound.drop (h : Sound s) (i : Nat) : Sound (s.drop i) :=
  h.shrink (((List.eraseIdx_sublist _ _).map _).append_right _).subperm rfl

theorem Sound.answer (h : Sound s) (ticket : Ticket) (outcome : Outcome) :
    Sound (s.answer ticket outcome) := h.same rfl rfl rfl

theorem sound_deliver (h : Sound s) (i n : Nat) (spawns : Bool) : Sound (s.deliver i n spawns) := by
  unfold State.deliver
  cases hp : s.pending[i]? with
  | none => exact h
  | some p =>
    dsimp only
    cases p.place with
    | wire addr =>
      dsimp only
      split_ifs
      · unfold State.submitReceived
        dsimp only
        cases (s.nodes n).routing.pluralityTarget p.txn.ids with
        | none => exact h.drop i
        | some preferred =>
          dsimp only
          cases (s.nodes n).localSender preferred spawns with
          | some node => exact (h.setNode n node).move hp _
          | none =>
            dsimp only
            split
            · exact (h.setNode n _).move hp _
            · exact (h.drop i).answer _ _
      · exact h
    | inbox => exact h
    | parked => exact h

theorem sound_handle (h : Sound s) (i : Nat) : Sound (s.handle i) := by
  unfold State.handle
  cases hp : s.pending[i]? with
  | none => exact h
  | some p =>
    dsimp only
    cases p.place with
    | inbox n worker => exact (h.setNode n _).move hp _
    | wire => exact h
    | parked => exact h

theorem sound_run (h : Sound s) (i : Nat) (result : Except ApiError Unit) :
    Sound (s.runAndComplete i result) := by
  unfold State.runAndComplete
  cases hp : s.pending[i]? with
  | none => exact h
  | some p =>
    dsimp only
    cases p.place with
    | parked n worker txn => exact h.shrink (tickets_run hp).subperm rfl
    | wire => exact h
    | inbox => exact h

theorem sound_drop (h : Sound s) (i : Nat) (msg : String) :
    Sound (s.lose i) ∧ Sound (s.failTxn i msg) ∧ Sound (s.discard i) := by
  unfold State.lose State.failTxn State.discard
  cases s.pending[i]? with
  | none => exact ⟨h, h, h⟩
  | some p =>
    obtain ⟨place, ticket, txn⟩ := p
    cases place with
    | wire => exact ⟨h.drop i, h, h⟩
    | inbox => exact ⟨h, h, (h.drop i).answer _ _⟩
    | parked => exact ⟨h, (h.drop i).answer _ _, (h.drop i).answer _ _⟩

theorem sound_crash (h : Sound s) (n : Nat) : Sound (s.crash n) := by
  have hcall : ∀ k,
      ((s.crash n).calls k).sends = (s.calls k).sends ∧ ((s.crash n).calls k).Fits := by
    intro k
    have hfits := h.fits k
    change (Call.sends (match (s.calls k).phase with
      | .idle => s.calls k
      | _ => if (s.calls k).node = n then { s.calls k with phase := .gone } else s.calls k)) = _ ∧
      Call.Fits (match (s.calls k).phase with
      | .idle => s.calls k
      | _ => if (s.calls k).node = n then { s.calls k with phase := .gone } else s.calls k)
    split
    · exact ⟨rfl, hfits⟩
    · split_ifs
      · exact ⟨rfl, hfits.sends⟩
      · exact ⟨rfl, hfits⟩
  have hsub : (s.crash n).tickets.Sublist s.tickets :=
    (List.filter_sublist.map _).append_right _
  refine ⟨hsub.nodup h.nodup, fun ticket hmem => ?_, fun k => (hcall k).2⟩
  rw [(hcall ticket.1).1]
  exact h.sent ticket (hsub.subset hmem)

theorem sound_step (h : Sound s) (m : Move) : Sound (s.step m) := by
  cases m with
  | submit k n objects ops readOnly optimistic spawns =>
    have hfits := h.fits k
    simp only [State.step]
    cases hphase : (s.calls k).phase with
    | idle =>
      simp only [Call.Fits, hphase] at hfits
      dsimp only
      split_ifs
      · exact sound_submitAs h hfits n objects ops readOnly optimistic spawns
      · exact h
    | _ => exact h
  | resolve k fault => exact sound_resolved h k fault
  | breakOff k e => exact sound_returned h k (.error e)
  | answer k i => exact sound_answered h k i
  | durableRead k outcome =>
    unfold State.step
    dsimp only
    split
    · exact h.setPhase fun _ hsends => hsends
    · exact h
  | deliver i n spawns => exact sound_deliver h i n spawns
  | lose i => exact (sound_drop h i "").1
  | handle i => exact sound_handle h i
  | run i result => exact sound_run h i result
  | fail i msg => exact (sound_drop h i msg).2.1
  | discard i => exact (sound_drop h i "").2.2
  | crash n => exact sound_crash h n
  | route n routing epochs => exact h.setNode n _
  | lease block addr => exact h.same rfl rfl rfl

/-- No call has begun. -/
def start (nodes : Nat → Node) (leases : Nat → Option String) : State := { nodes, leases }

theorem sound_initial (nodes : Nat → Node) (leases : Nat → Option String) :
    Sound (start nodes leases) := ⟨List.nodup_nil, nofun, fun _ => rfl⟩

/-- In every run, however forwards and answers are lost and leases move, a call's ops are run at
most once for each time they were handed over. -/
theorem submission_once_per_send (nodes : Nat → Node) (leases : Nat → Option String)
    (moves : List Move) :
    Runs.Throughout State.step (fun s => ∀ k, OncePerSend s k) (start nodes leases) moves :=
  Runs.invariant (I := Sound) (fun _ m h => sound_step h m) (fun _ h => h.oncePerSend)
    (sound_initial nodes leases) moves

/-- Object `acct` is worker 1's, and node 1 at `b` holds the lease of its block. -/
def hints : Routing where
  logical := 4
  blocks := 4
  exceptions := AList.singleton "acct" 1
  addrs := AList.singleton 1 "b"

def trio : Nat → Node
  | 0 => { address := "a", routing := hints, epochs := [0] }
  | 1 => { address := "b", routing := hints, epochs := [1] }
  | _ => { address := "c", routing := hints, epochs := [] }

/-- Node 1 runs the update, but its answer takes longer than the caller waits; meanwhile the lease
moves to node 2. -/
def lateAnswer : List Move :=
  [.submit 0 0 ["acct"] [⟨"acct", "UPDATE acct SET n = n + 1"⟩] false false true,
    .deliver 0 1 true, .handle 0, .run 0 (.ok ()),
    .lease 1 (some "c"), .route 2 hints [1],
    .breakOff 0 "operation timed out", .resolve 0 .none,
    .deliver 0 2 true, .handle 0, .run 0 (.ok ())]

theorem submission_runs_twice :
    ¬ Runs.Throughout State.step (fun s => ∀ k, s.executions k ≤ 1)
      (start trio (Function.update (fun _ => none) 1 (some "b"))) lateAnswer := by
  intro h
  have htwice : (Runs.run State.step (start trio (Function.update (fun _ => none) 1 (some "b")))
      lateAnswer).executions 0 = 2 := by decide
  have hone := h.last 0
  omega

end Fafo.Submission
