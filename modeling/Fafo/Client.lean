import Fafo.Library.Runs
import Fafo.Sessions
import Mathlib.Data.List.AList
import Mathlib.Data.List.Perm.Basic

/-! The client's socket and the session behind it: which promises are settled, and by what. -/
namespace Fafo.Client

open Submission Sessions

/-- What is asked of a socket. -/
inductive Call where
  | txn (ops : List Op) (objects : List String) (optimistic readOnly : Bool)
  | poll (p : PollBody)
  | setWill (w : WillBody)
  | clearWill
  deriving DecidableEq, Repr

def Call.frame (id : Nat) : Call → WsFrame
  | txn ops objects optimistic readOnly => { id, objects, ops, optimistic, readOnly }
  | poll p => { id, poll := some p }
  | setWill w => { id, will := some w }
  | clearWill => { id, will := some {} }

inductive ReadyState where
  | opened
  | closing
  | closed
  deriving DecidableEq, Repr

/-- How a promise is settled. -/
inductive Outcome where
  | resolved (r : Reply)
  | rejected (e : ApiError)
  | connectionClosed
  deriving DecidableEq, Repr

def outcome : Reply → Outcome
  | .error _ e => .rejected e
  | r => .resolved r

/-- Ids are doubles: from `2 ^ 53` on, adding one changes nothing. -/
def increment (n : Nat) : Nat := if n < 2 ^ 53 then n + 1 else n

/-- A promise is known by the number of the call that made it. For the record: the frames of the
calls, and how promises were settled. -/
structure FafoSocket where
  next : Nat := 1
  pending : AList fun _ : Nat => Nat := ∅
  readyState : ReadyState := .opened
  calls : List WsFrame := []
  settled : List (Nat × Outcome) := []

def replyId : Reply → Option Nat
  | .badFrame => none
  | .error id _ | .result id | .armed id | .disarmed id => some id

def waitingId : Waiting → Nat
  | .txn id | .poll id | .arm id _ | .disarm id => id

namespace FafoSocket

variable (s : FafoSocket)

/-- What `txn`, `poll` and `willFrame` do before they send. -/
def request (c : Call) : FafoSocket :=
  { s with
    next := increment s.next
    pending := s.pending.insert s.next s.calls.length
    calls := s.calls ++ [c.frame s.next] }

def onmessage (r : Reply) : FafoSocket :=
  match replyId r with
  | none => s
  | some id =>
    match s.pending.lookup id with
    | none => s
    | some p =>
      { s with pending := s.pending.erase id, settled := (p, outcome r) :: s.settled }

def onclose : FafoSocket :=
  { s with
    readyState := .closed
    pending := ∅
    settled := s.pending.entries.map (fun e => (e.2, .connectionClosed)) ++ s.settled }

def Settled (p : Nat) : Prop := p ∈ s.settled.map (·.1)

end FafoSocket

/-- Frames that were sent may be in tasks of their own, and are handled in any order. Replies are
heard in the order in which they were made. -/
structure Link where
  socket : FafoSocket := {}
  session : Session
  sent : List WsFrame := []
  heard : List Reply := []

namespace Link

variable (l : Link)

/-- Unless the socket is open, nothing is sent and no one is told. -/
def send (f : WsFrame) : Link :=
  if l.socket.readyState = .opened then { l with sent := l.sent ++ [f] } else l

def unheard : List Reply := l.session.replies.take (l.session.replies.length - l.heard.length)

end Link

inductive Event where
  | call (c : Call)
  | cancel (p : Nat)
  | handle (i now : Nat) (hosts : String → Bool)
  | resume (x : Waiting) (result : Except ApiError Unit)
  | hangUp
  | message
  | closing
  | onclose

def step (node : Node) (l : Link) : Event → Link
  | .call c => { l with socket := l.socket.request c }.send (c.frame l.socket.next)
  | .cancel p =>
    -- only the handle that `poll` returns can cancel
    match l.socket.calls[p]? with
    | some f => if f.poll.isSome then l.send { id := f.id, cancel := true } else l
    | none => l
  | .handle i now hosts =>
    match l.sent[i]? with
    | some f =>
      { l with
        session := Sessions.step node l.session (.frame now hosts (some f))
        sent := l.sent.eraseIdx i }
    | none => l
  | .resume x result => { l with session := Sessions.step node l.session (.resume x result) }
  | .hangUp => { l with session := Sessions.step node l.session .close }
  | .message =>
    -- a socket that is closing drops what comes
    if l.socket.readyState = .opened then
      match l.unheard.getLast? with
      | some r => { l with socket := l.socket.onmessage r, heard := r :: l.heard }
      | none => l
    else l
  | .closing =>
    if l.socket.readyState = .opened then
      { l with socket := { l.socket with readyState := .closing } }
    else l
  | .onclose => if l.socket.readyState = .closed then l else { l with socket := l.socket.onclose }

/-- The socket of a session that has just been opened, after the events. -/
def linked (node : Node) (auth : Auth) (events : List Event) : Link :=
  Runs.run (step node) { session := Session.start auth } events

/-- The reply is one that the frame can have. -/
def Suits (f : WsFrame) (r : Reply) : Prop :=
  replyId r = some f.id ∧
    match r with
    | .badFrame => False
    | .error _ _ => f.Asks
    | .result _ => f.will = none
    | .armed _ => f.Asks ∧ f.will.isSome
    | .disarmed _ => ¬ f.Asks

/-- The handler is one that the frame can have. -/
def Awaits (f : WsFrame) (x : Waiting) : Prop :=
  waitingId x = f.id ∧
    match x with
    | .txn _ | .poll _ => f.Asks ∧ f.will = none
    | .arm _ _ => f.Asks ∧ f.will.isSome
    | .disarm _ => ¬ f.Asks

/-- Handling a frame answers it, or starts to wait for its answer. -/
def Takes (f : WsFrame) (s s' : Session) : Prop :=
  (∃ r, s'.replies = r :: s.replies ∧ s'.waiting = s.waiting ∧ Suits f r) ∨
    ∃ x, s'.replies = s.replies ∧ s'.waiting = x :: s.waiting ∧ Awaits f x

section Session

variable {node : Node} {now : Nat} {s : Session} {hosts : String → Bool} {f : WsFrame}

theorem takes_error (hasks : f.Asks) (e : ApiError) : Takes f s (s.reply (.error f.id e)) :=
  .inl ⟨_, rfl, rfl, rfl, hasks⟩

theorem takes_will {w : WillBody} (hcancel : f.cancel = false) (hw : f.will = some w) :
    Takes f s (handleWill node now s f.id w) := by
  rw [handleWill]
  by_cases hops : w.ops = []
  · rw [if_pos hops]
    refine .inr ⟨_, rfl, rfl, rfl, fun hasks => ?_⟩
    exact hasks.2 w hw hops
  · rw [if_neg hops]
    have hasks : f.Asks := by
      refine ⟨hcancel, fun w' hw' => ?_⟩
      rw [hw] at hw'
      cases hw'
      exact hops
    split
    · exact takes_error hasks _
    · split
      · exact takes_error hasks _
      · dsimp only
        split
        · exact .inr ⟨_, rfl, rfl, rfl, hasks, by rw [hw]; rfl⟩
        · exact .inl ⟨_, rfl, rfl, rfl, hasks, by rw [hw]; rfl⟩

theorem asks_of_no_will (hcancel : f.cancel = false) (hw : f.will = none) : f.Asks := by
  refine ⟨hcancel, fun w h => ?_⟩
  rw [hw] at h
  cases h

theorem takes_poll {p : PollBody} (hcancel : f.cancel = false) (hw : f.will = none) :
    Takes f s (handlePoll now s hosts f.id p) := by
  have hasks := asks_of_no_will hcancel hw
  rw [handlePoll]
  split
  · exact takes_error hasks _
  · split_ifs
    · exact .inl ⟨_, rfl, rfl, rfl, hasks⟩
    · exact .inl ⟨_, rfl, rfl, rfl, hasks⟩
    · exact .inr ⟨_, rfl, rfl, rfl, hasks, hw⟩

theorem takes_txn (hcancel : f.cancel = false) (hw : f.will = none) :
    Takes f s (handleTxn now s f) := by
  have hasks := asks_of_no_will hcancel hw
  simp only [handleTxn]
  split
  · exact takes_error hasks _
  · split
    · exact takes_error hasks _
    · exact .inr ⟨_, rfl, rfl, rfl, hasks, hw⟩

theorem takes_frame (hcancel : f.cancel = false) :
    Takes f s (handleWsFrame node now s hosts f) := by
  rw [handleWsFrame, hcancel, if_neg Bool.false_ne_true]
  cases hw : f.will with
  | some w => exact takes_will hcancel hw
  | none =>
    cases f.poll with
    | some p => exact takes_poll hcancel hw
    | none => exact takes_txn hcancel hw

/-- A handler that is resumed answers the frame that it has. -/
theorem resume_suits (x : Waiting) (result : Except ApiError Unit) :
    ∃ r, (resume s x result).replies = r :: s.replies ∧
      (resume s x result).waiting = s.waiting.erase x ∧
      replyId r = some (waitingId x) ∧ ∀ f, Awaits f x → Suits f r := by
  cases x with
  | txn id =>
    cases result with
    | ok _ => exact ⟨_, rfl, rfl, rfl, fun f h => ⟨congrArg some h.1, h.2.2⟩⟩
    | error e => exact ⟨_, rfl, rfl, rfl, fun f h => ⟨congrArg some h.1, h.2.1⟩⟩
  | poll id =>
    cases result with
    | ok _ => exact ⟨_, rfl, rfl, rfl, fun f h => ⟨congrArg some h.1, h.2.2⟩⟩
    | error e => exact ⟨_, rfl, rfl, rfl, fun f h => ⟨congrArg some h.1, h.2.1⟩⟩
  | arm id w =>
    cases result with
    | ok _ => exact ⟨_, rfl, rfl, rfl, fun f h => ⟨congrArg some h.1, h.2⟩⟩
    | error e => exact ⟨_, rfl, rfl, rfl, fun f h => ⟨congrArg some h.1, h.2.1⟩⟩
  | disarm id => exact ⟨_, rfl, rfl, rfl, fun f h => ⟨congrArg some h.1, h.2⟩⟩

end Session

/-- Promise `p`'s id, whether it is pending or settled, and how the ids go on. -/
structure Numbered (s : FafoSocket) : Prop where
  next : s.next = min (s.calls.length + 1) (2 ^ 53)
  ids : ∀ {p f}, s.calls[p]? = some f → f.id = min (p + 1) (2 ^ 53) ∧ f.cancel = false
  pending : ∀ {id p}, s.pending.lookup id = some p →
    p < s.calls.length ∧ id = min (p + 1) (2 ^ 53) ∧ ¬ s.Settled p
  bound : ∀ {p}, s.Settled p → p < s.calls.length
  once : (s.settled.map (·.1)).Nodup
  held : ∀ {p}, p < s.calls.length → p + 1 < 2 ^ 53 →
    s.Settled p ∨ s.pending.lookup (p + 1) = some p

section Socket

variable {s : FafoSocket} {p : Nat}

theorem numbered_start : Numbered {} where
  next := by decide
  ids := by simp
  pending := by simp
  bound h := by simp [FafoSocket.Settled] at h
  once := List.nodup_nil
  held h := by simp at h

theorem frame_id (c : Call) (id : Nat) : (c.frame id).id = id ∧ (c.frame id).cancel = false := by
  cases c <;> exact ⟨rfl, rfl⟩

theorem Numbered.request (h : Numbered s) (c : Call) : Numbered (s.request c) where
  next := by
    have := h.next
    simp only [FafoSocket.request, increment, List.length_append, List.length_singleton]
    split_ifs <;> omega
  ids := by
    intro p f hp
    rw [FafoSocket.request, List.getElem?_append] at hp
    split_ifs at hp with hlt
    · exact h.ids hp
    · obtain ⟨hpos, hf⟩ := List.getElem?_eq_some_iff.mp hp
      have hlast : p = s.calls.length := by
        simp only [List.length_singleton] at hpos
        omega
      subst hlast
      simp only [Nat.sub_self, List.getElem_singleton] at hf
      subst hf
      refine ⟨?_, (frame_id c s.next).2⟩
      rw [(frame_id c s.next).1, h.next]
  pending := by
    intro id p hp
    simp only [FafoSocket.request, List.length_append, List.length_singleton] at hp ⊢
    by_cases hid : id = s.next
    · subst hid
      rw [AList.lookup_insert] at hp
      cases hp
      refine ⟨by omega, h.next, fun hset => ?_⟩
      have := h.bound hset
      omega
    · rw [AList.lookup_insert_ne hid] at hp
      obtain ⟨hlt, hidp, hset⟩ := h.pending hp
      exact ⟨by omega, hidp, hset⟩
  bound hset := by
    have := h.bound hset
    simp only [FafoSocket.request, List.length_append, List.length_singleton]
    omega
  once := h.once
  held := by
    intro p hp hsmall
    simp only [FafoSocket.request, List.length_append, List.length_singleton] at hp ⊢
    have hnext := h.next
    by_cases hlast : p = s.calls.length
    · subst hlast
      right
      rw [show s.calls.length + 1 = s.next by omega, AList.lookup_insert]
    · rcases h.held (p := p) (by omega) hsmall with hset | hpend
      · exact .inl hset
      · right
        rw [AList.lookup_insert_ne (by omega)]
        exact hpend

/-- A message settles the promise that is pending under its id, if there is one. -/
theorem onmessage_cases (s : FafoSocket) (r : Reply) :
    (s.onmessage r = s ∧ ∀ id, replyId r = some id → s.pending.lookup id = none) ∨
    ∃ id p, replyId r = some id ∧ s.pending.lookup id = some p ∧
      s.onmessage r =
        { s with pending := s.pending.erase id, settled := (p, outcome r) :: s.settled } := by
  rw [FafoSocket.onmessage]
  cases hid : replyId r with
  | none => exact .inl ⟨rfl, fun id h => by cases h⟩
  | some id =>
    cases hp : s.pending.lookup id with
    | none => exact .inl ⟨by simp only [hp], fun id' h => by cases h; exact hp⟩
    | some p => exact .inr ⟨id, p, rfl, hp, by simp only [hp]⟩

/-- A message makes no call, and leaves what is settled settled. -/
theorem onmessage_keeps (s : FafoSocket) (r : Reply) :
    (s.onmessage r).calls = s.calls ∧ (s.onmessage r).readyState = s.readyState ∧
      ∀ p, s.Settled p → (s.onmessage r).Settled p := by
  rcases onmessage_cases s r with ⟨hsame, _⟩ | ⟨id, p, _, _, hsettle⟩
  · rw [hsame]
    exact ⟨rfl, rfl, fun _ h => h⟩
  · rw [hsettle]
    exact ⟨rfl, rfl, fun _ h => List.mem_cons_of_mem _ h⟩

theorem Numbered.onmessage (h : Numbered s) (r : Reply) : Numbered (s.onmessage r) := by
  rcases onmessage_cases s r with ⟨hsame, _⟩ | ⟨id, p, _, hp, hsettle⟩
  · rw [hsame]
    exact h
  · rw [hsettle]
    obtain ⟨hlt, hid, hset⟩ := h.pending hp
    constructor
    · exact h.next
    · exact h.ids
    · intro id' q hq
      by_cases hne : id' = id
      · subst hne
        rw [AList.lookup_erase] at hq
        cases hq
      · rw [AList.lookup_erase_ne hne] at hq
        obtain ⟨hqlt, hidq, hqset⟩ := h.pending hq
        refine ⟨hqlt, hidq, fun hnow => ?_⟩
        rcases List.mem_cons.mp hnow with heq | hmem
        · apply hne
          rw [hidq, hid, heq]
        · exact hqset hmem
    · intro q hq
      rcases List.mem_cons.mp hq with heq | hmem
      · rw [heq]
        exact hlt
      · exact h.bound hmem
    · exact List.nodup_cons.mpr ⟨hset, h.once⟩
    · intro q hq hsmall
      by_cases heq : q = p
      · exact .inl (List.mem_cons.mpr (.inl heq))
      · rcases h.held hq hsmall with hqset | hpend
        · exact .inl (List.mem_cons_of_mem _ hqset)
        · right
          have hne : q + 1 ≠ id := by
            intro h'
            rw [h', hp] at hpend
            exact heq (Option.some.inj hpend).symm
          rw [AList.lookup_erase_ne hne]
          exact hpend

/-- What `onclose` settles is what was pending. -/
theorem settled_onclose :
    s.onclose.Settled p ↔ (∃ id, s.pending.lookup id = some p) ∨ s.Settled p := by
  simp only [FafoSocket.Settled, FafoSocket.onclose, List.map_append, List.map_map,
    List.mem_append, List.mem_map, Function.comp]
  refine or_congr ⟨?_, ?_⟩ Iff.rfl
  · rintro ⟨⟨id, q⟩, hmem, rfl⟩
    exact ⟨id, AList.mem_lookup_iff.mpr hmem⟩
  · rintro ⟨id, hp⟩
    exact ⟨⟨id, p⟩, AList.mem_lookup_iff.mp hp, rfl⟩

/-- No promise is pending under two ids. -/
theorem Numbered.pending_nodup (h : Numbered s) : (s.pending.entries.map fun e => e.2).Nodup := by
  refine List.Nodup.map_on ?_ (List.NodupKeys.nodup s.pending.nodupKeys)
  rintro ⟨id, q⟩ hmem ⟨id', q'⟩ hmem' heq
  have hid := (h.pending (AList.mem_lookup_iff.mpr hmem)).2.1
  have hid' := (h.pending (AList.mem_lookup_iff.mpr hmem')).2.1
  change q = q' at heq
  subst heq
  rw [hid, hid']

theorem Numbered.onclose (h : Numbered s) : Numbered s.onclose where
  next := h.next
  ids := h.ids
  pending hp := by
    change AList.lookup _ ∅ = _ at hp
    simp at hp
  bound hset := by
    rcases settled_onclose.mp hset with ⟨id, hp⟩ | hset
    · exact (h.pending hp).1
    · exact h.bound hset
  once := by
    simp only [FafoSocket.onclose, List.map_append, List.map_map]
    refine List.nodup_append'.mpr ⟨h.pending_nodup, h.once, ?_⟩
    intro q hq hset
    obtain ⟨⟨id, q'⟩, hmem, rfl⟩ := List.mem_map.mp hq
    exact (h.pending (AList.mem_lookup_iff.mpr hmem)).2.2 hset
  held hp hsmall := by
    rcases h.held hp hsmall with hset | hpend
    · exact .inl (settled_onclose.mpr (.inr hset))
    · exact .inl (settled_onclose.mpr (.inl ⟨_, hpend⟩))

end Socket

/-- How often the answer to `k` is asked for, awaited or given. -/
def places (l : Link) (k : Nat) : Nat :=
  l.sent.countP (fun f => f.cancel = false ∧ f.id = k) +
    l.session.waiting.countP (fun x => waitingId x = k) +
    l.session.replies.countP (fun r => replyId r = some k)

/-- Calls are answered in one place, by what suits them; what was heard settled its promise, and
besides the closing nothing else did. -/
structure Kept (l : Link) : Prop where
  numbered : Numbered l.socket
  sent : ∀ f ∈ l.sent, f.cancel = false → f ∈ l.socket.calls
  waiting : ∀ x ∈ l.session.waiting, ∃ f ∈ l.socket.calls, Awaits f x
  replies : ∀ r ∈ l.session.replies, ∃ f ∈ l.socket.calls, Suits f r
  heard : l.heard <:+ l.session.replies
  answered : ∀ {p o}, (p, o) ∈ l.socket.settled → o = .connectionClosed ∨
    ∃ r ∈ l.heard, o = outcome r ∧ replyId r = some (min (p + 1) (2 ^ 53))
  settles : ∀ {p r}, r ∈ l.heard → replyId r = some (p + 1) → p + 1 < 2 ^ 53 → l.socket.Settled p
  single : ∀ {k}, k < 2 ^ 53 → places l k ≤ 1
  fresh : ∀ {k}, l.socket.calls.length < k → k < 2 ^ 53 → places l k = 0
  asked : l.socket.readyState = .opened → ∀ {k}, 0 < k → k ≤ l.socket.calls.length → k < 2 ^ 53 →
    places l k = 1

section Link

variable {node : Node} {l : Link}

theorem kept_start (auth : Auth) : Kept { session := Session.start auth } where
  numbered := numbered_start
  sent _ hf := by cases hf
  waiting _ hx := by cases hx
  replies _ hr := by cases hr
  heard := List.suffix_refl _
  answered h := by cases h
  settles h := by cases h
  single _ := by simp [places, Session.start]
  fresh _ _ := by simp [places, Session.start]
  asked _ _ hpos hle := by
    simp only [List.length_nil] at hle
    omega

/-- The frame of a call whose id is small is found by its id. -/
theorem Kept.call_of_id (h : Kept l) {f : WsFrame} {p : Nat} (hf : f ∈ l.socket.calls)
    (hid : f.id = p + 1) (hsmall : p + 1 < 2 ^ 53) : l.socket.calls[p]? = some f := by
  obtain ⟨q, hq⟩ := List.mem_iff_getElem?.mp hf
  have := (h.numbered.ids hq).1
  have hqp : q = p := by omega
  rw [← hqp]
  exact hq

theorem mem_calls_request {c : Call} {f : WsFrame} (hf : f ∈ l.socket.calls) :
    f ∈ (l.socket.request c).calls := List.mem_append_left _ hf

/-- Where a frame is sent that asks for `k`, and where it is not. -/
theorem places_send (l : Link) (f : WsFrame) (k : Nat) : places (l.send f) k =
    places l k + if l.socket.readyState = .opened ∧ f.cancel = false ∧ f.id = k then 1 else 0 := by
  rw [Link.send]
  by_cases hopen : l.socket.readyState = .opened
  · rw [if_pos hopen]
    simp only [places, List.countP_append, List.countP_singleton, hopen, true_and,
      decide_eq_true_eq]
    omega
  · rw [if_neg hopen, if_neg fun h => hopen h.1]
    rfl

theorem mem_send {l : Link} {f g : WsFrame} (hg : g ∈ (l.send f).sent) : g ∈ l.sent ∨ g = f := by
  rw [Link.send] at hg
  split_ifs at hg
  · exact (List.mem_append.mp hg).imp_right List.mem_singleton.mp
  · exact .inl hg

@[simp] theorem send_socket (f : WsFrame) : (l.send f).socket = l.socket := by
  rw [Link.send]
  split_ifs <;> rfl

@[simp] theorem send_session (f : WsFrame) : (l.send f).session = l.session := by
  rw [Link.send]
  split_ifs <;> rfl

@[simp] theorem send_heard (f : WsFrame) : (l.send f).heard = l.heard := by
  rw [Link.send]
  split_ifs <;> rfl

theorem Kept.call (h : Kept l) (c : Call) :
    Kept ({ l with socket := l.socket.request c }.send (c.frame l.socket.next)) := by
  have hlen : (l.socket.request c).calls.length = l.socket.calls.length + 1 := by
    simp [FafoSocket.request]
  have hnext := h.numbered.next
  obtain ⟨hid, hcancel⟩ := frame_id c l.socket.next
  have hplaces : ∀ k, places ({ l with socket := l.socket.request c }.send
      (c.frame l.socket.next)) k =
        places l k + if l.socket.readyState = .opened ∧ l.socket.next = k then 1 else 0 := by
    intro k
    rw [places_send]
    simp only [hid, hcancel, true_and]
    rfl
  constructor
  · rw [send_socket]
    exact h.numbered.request c
  · intro f hf hno
    rw [send_socket]
    rcases mem_send hf with hold | rfl
    · exact mem_calls_request (h.sent f hold hno)
    · exact List.mem_append_right _ List.mem_cons_self
  · intro x hx
    rw [send_session] at hx
    rw [send_socket]
    obtain ⟨f, hf, hawaits⟩ := h.waiting x hx
    exact ⟨f, mem_calls_request hf, hawaits⟩
  · intro r hr
    rw [send_session] at hr
    rw [send_socket]
    obtain ⟨f, hf, hsuits⟩ := h.replies r hr
    exact ⟨f, mem_calls_request hf, hsuits⟩
  · rw [send_session, send_heard]
    exact h.heard
  · intro p o hset
    rw [send_socket] at hset
    rw [send_heard]
    exact h.answered hset
  · intro p r hr hidr hsmall
    rw [send_heard] at hr
    rw [send_socket]
    exact h.settles hr hidr hsmall
  · intro k hk
    rw [hplaces]
    split_ifs with hnew
    · have := h.fresh (k := k) (by omega) hk
      omega
    · exact h.single hk
  · intro k hlt hk
    rw [send_socket] at hlt
    change (l.socket.request c).calls.length < k at hlt
    rw [hplaces, if_neg (by omega)]
    exact h.fresh (by omega) hk
  · intro hopen k hpos hle hk
    rw [send_socket] at hopen hle
    change l.socket.readyState = .opened at hopen
    change k ≤ (l.socket.request c).calls.length at hle
    rw [hplaces]
    by_cases hlast : k = l.socket.calls.length + 1
    · rw [if_pos ⟨hopen, by omega⟩, h.fresh (by omega) hk]
    · rw [if_neg (by omega)]
      exact h.asked hopen hpos (by omega) hk

/-- What is on its way moves, and stays in one place. -/
theorem Kept.move (h : Kept l) {session : Session} {sent : List WsFrame}
    (hsent : ∀ f ∈ sent, f.cancel = false → f ∈ l.socket.calls)
    (hwaiting : ∀ x ∈ session.waiting, ∃ f ∈ l.socket.calls, Awaits f x)
    (hreplies : ∀ r ∈ session.replies, ∃ f ∈ l.socket.calls, Suits f r)
    (hheard : l.heard <:+ session.replies)
    (hplaces : ∀ k, places { l with session, sent } k = places l k) :
    Kept { l with session, sent } where
  numbered := h.numbered
  sent := hsent
  waiting := hwaiting
  replies := hreplies
  heard := hheard
  answered := h.answered
  settles := h.settles
  single hk := by
    rw [hplaces]
    exact h.single hk
  fresh hlt hk := by
    rw [hplaces]
    exact h.fresh hlt hk
  asked hopen _ hpos hle hk := by
    rw [hplaces]
    exact h.asked hopen hpos hle hk

/-- A cancel asks for no answer. -/
theorem Kept.cancel (h : Kept l) (id : Nat) : Kept (l.send { id, cancel := true }) := by
  rw [Link.send]
  split_ifs
  · refine h.move (fun f hf hno => ?_) h.waiting h.replies h.heard fun k => ?_
    · rcases List.mem_append.mp hf with hold | hnew
      · exact h.sent f hold hno
      · rw [List.mem_singleton.mp hnew] at hno
        cases hno
    · simp [places, List.countP_append]
  · exact h

theorem countP_eraseIdx {α : Type} {P : α → Bool} {xs : List α} {i : Nat} {x : α}
    (hx : xs[i]? = some x) : xs.countP P = (xs.eraseIdx i).countP P + if P x then 1 else 0 := by
  obtain ⟨hi, rfl⟩ := List.getElem?_eq_some_iff.mp hx
  have hperm := List.getElem_cons_eraseIdx_perm hi
  rw [← hperm.countP_eq P, List.countP_cons]

/-- A frame that is handled is answered, or its answer is awaited. -/
theorem Kept.handle (h : Kept l) {i : Nat} {f : WsFrame} (hf : l.sent[i]? = some f) (now : Nat)
    (hosts : String → Bool) :
    Kept { l with
      session := Sessions.step node l.session (.frame now hosts (some f))
      sent := l.sent.eraseIdx i } := by
  have hmem : f ∈ l.sent := List.mem_of_getElem? hf
  have hsent : ∀ g ∈ l.sent.eraseIdx i, g.cancel = false → g ∈ l.socket.calls := by
    intro g hg
    exact h.sent g ((List.eraseIdx_sublist ..).subset hg)
  have hcount := fun k => countP_eraseIdx (P := fun f => f.cancel = false ∧ f.id = k) hf
  by_cases hcancel : f.cancel = false
  · have hcall := h.sent f hmem hcancel
    have htakes : Takes f l.session (handleWsFrame node now l.session hosts f) :=
      takes_frame hcancel
    rcases htakes with
      ⟨r, hreplies, hwaiting, hsuits⟩ | ⟨x, hreplies, hwaiting, hawaits⟩
    · refine h.move hsent ?_ ?_ ?_ fun k => ?_ <;> simp only [Sessions.step]
      · rw [hwaiting]
        exact h.waiting
      · rw [hreplies]
        exact List.forall_mem_cons.mpr ⟨⟨f, hcall, hsuits⟩, h.replies⟩
      · rw [hreplies]
        exact h.heard.trans (List.suffix_cons ..)
      · have := hcount k
        simp only [places, hreplies, hwaiting, List.countP_cons, hsuits.1, hcancel, true_and,
          Option.some.injEq, decide_eq_true_eq] at this ⊢
        omega
    · refine h.move hsent ?_ ?_ ?_ fun k => ?_ <;> simp only [Sessions.step]
      · rw [hwaiting]
        exact List.forall_mem_cons.mpr ⟨⟨f, hcall, hawaits⟩, h.waiting⟩
      · rw [hreplies]
        exact h.replies
      · rw [hreplies]
        exact h.heard
      · have := hcount k
        simp only [places, hreplies, hwaiting, List.countP_cons, hawaits.1, hcancel, true_and,
          decide_eq_true_eq] at this ⊢
        omega
  · have hforget : handleWsFrame node now l.session hosts f = l.session.forget f.id := by
      rw [handleWsFrame, if_pos (by simpa using hcancel)]
    refine h.move hsent ?_ ?_ ?_ fun k => ?_ <;> simp only [Sessions.step, hforget]
    · exact h.waiting
    · exact h.replies
    · exact h.heard
    · have := hcount k
      rw [if_neg fun hk => hcancel (of_decide_eq_true hk).1, Nat.add_zero] at this
      simp only [places, this]
      rfl

/-- A handler that is resumed gives the answer that was awaited. -/
theorem Kept.resume (h : Kept l) (x : Waiting) (result : Except ApiError Unit) :
    Kept { l with session := Sessions.step node l.session (.resume x result) } := by
  simp only [Sessions.step]
  split_ifs with hx
  · obtain ⟨r, hreplies, hwaiting, hid, hsuits⟩ := resume_suits (s := l.session) x result
    obtain ⟨f, hf, hawaits⟩ := h.waiting x hx
    refine h.move h.sent ?_ ?_ ?_ fun k => ?_
    · rw [hwaiting]
      exact fun y hy => h.waiting y (List.mem_of_mem_erase hy)
    · rw [hreplies]
      exact List.forall_mem_cons.mpr ⟨⟨f, hf, hsuits f hawaits⟩, h.replies⟩
    · rw [hreplies]
      exact h.heard.trans (List.suffix_cons ..)
    · have hperm := (List.perm_cons_erase hx).countP_eq fun y => decide (waitingId y = k)
      rw [List.countP_cons] at hperm
      simp only [places, hreplies, hwaiting, List.countP_cons, hid, Option.some.injEq,
        decide_eq_true_eq] at hperm ⊢
      omega
  · exact h

theorem Kept.hangUp (h : Kept l) :
    Kept { l with session := Sessions.step node l.session .close } := by
  simp only [Sessions.step]
  split_ifs
  · exact h
  · exact h.move h.sent h.waiting h.replies h.heard fun _ => rfl

theorem Kept.unheard_append (h : Kept l) : l.unheard ++ l.heard = l.session.replies := by
  obtain ⟨unheard, hreplies⟩ := h.heard
  rw [Link.unheard, ← hreplies]
  simp

theorem Kept.message (h : Kept l) {r : Reply} (hr : l.unheard.getLast? = some r) :
    Kept { l with socket := l.socket.onmessage r, heard := r :: l.heard } := by
  have happend : l.unheard.dropLast ++ r :: l.heard = l.session.replies := by
    rw [← h.unheard_append, ← List.dropLast_append_getLast? r hr]
    simp
  have hmem : r ∈ l.session.replies := by
    rw [← happend]
    simp
  obtain ⟨f, hf, hsuits⟩ := h.replies r hmem
  have hcases := onmessage_cases l.socket r
  obtain ⟨hcalls, hstate, hsettled⟩ := onmessage_keeps l.socket r
  constructor
  · exact h.numbered.onmessage r
  · rw [hcalls]
    exact h.sent
  · rw [hcalls]
    exact h.waiting
  · rw [hcalls]
    exact h.replies
  · exact ⟨_, happend⟩
  · intro p o hset
    have hold : (p, o) ∈ l.socket.settled → o = .connectionClosed ∨ ∃ r' ∈ r :: l.heard,
        o = outcome r' ∧ replyId r' = some (min (p + 1) (2 ^ 53)) := by
      intro hset
      rcases h.answered hset with hclosed | ⟨r', hr', hsays⟩
      · exact .inl hclosed
      · exact .inr ⟨r', List.mem_cons_of_mem _ hr', hsays⟩
    rcases hcases with ⟨hsame, _⟩ | ⟨id, q, hid, hq, hsettle⟩
    · rw [hsame] at hset
      exact hold hset
    · rw [hsettle] at hset
      rcases List.mem_cons.mp hset with heq | hset
      · cases heq
        refine .inr ⟨r, List.mem_cons_self, rfl, ?_⟩
        rw [hid, (h.numbered.pending hq).2.1]
      · exact hold hset
  · intro p r' hr' hid' hsmall
    rcases List.mem_cons.mp hr' with rfl | hr'
    · have hfid : f.id = p + 1 := by
        have := hsuits.1
        rw [hid'] at this
        exact (Option.some.inj this).symm
      have hcall := h.call_of_id hf hfid hsmall
      have hp := (List.getElem?_eq_some_iff.mp hcall).1
      rcases h.numbered.held hp hsmall with hset | hpend
      · exact hsettled p hset
      · rcases hcases with ⟨_, hnone⟩ | ⟨id, q, hid, hq, hsettle⟩
        · rw [hnone _ hid'] at hpend
          cases hpend
        · rw [hid'] at hid
          cases hid
          rw [hpend] at hq
          cases hq
          rw [hsettle]
          exact List.mem_cons_self
    · exact hsettled p (h.settles hr' hid' hsmall)
  · exact h.single
  · rw [hcalls]
    exact h.fresh
  · rw [hcalls, hstate]
    exact h.asked

theorem Kept.closing (h : Kept l) :
    Kept { l with socket := { l.socket with readyState := .closing } } where
  numbered := ⟨h.numbered.next, h.numbered.ids, h.numbered.pending, h.numbered.bound,
    h.numbered.once, h.numbered.held⟩
  sent := h.sent
  waiting := h.waiting
  replies := h.replies
  heard := h.heard
  answered := h.answered
  settles := h.settles
  single := h.single
  fresh := h.fresh
  asked hopen := by cases hopen

theorem Kept.onclose (h : Kept l) : Kept { l with socket := l.socket.onclose } where
  numbered := h.numbered.onclose
  sent := h.sent
  waiting := h.waiting
  replies := h.replies
  heard := h.heard
  answered hset := by
    rcases List.mem_append.mp hset with hnew | hold
    · obtain ⟨e, _, heq⟩ := List.mem_map.mp hnew
      cases heq
      exact .inl rfl
    · exact h.answered hold
  settles hr hid hsmall := settled_onclose.mpr (.inr (h.settles hr hid hsmall))
  single := h.single
  fresh := h.fresh
  asked hopen := by cases hopen

theorem kept_step (h : Kept l) (e : Event) : Kept (step node l e) := by
  cases e with
  | call c => exact h.call c
  | cancel p =>
    simp only [step]
    split
    · split_ifs
      · exact h.cancel _
      · exact h
    · exact h
  | handle i now hosts =>
    simp only [step]
    split
    · next f hf => exact h.handle hf now hosts
    · exact h
  | resume x result => exact h.resume x result
  | hangUp => exact h.hangUp
  | message =>
    simp only [step]
    split_ifs
    · split
      · next r hr => exact h.message hr
      · exact h
    · exact h
  | closing =>
    simp only [step]
    split_ifs
    · exact h.closing
    · exact h
  | onclose =>
    simp only [step]
    split_ifs
    · exact h
    · exact h.onclose

theorem kept_linked (node : Node) (auth : Auth) (events : List Event) :
    Kept (linked node auth events) := by
  have h : Runs.Throughout (step node) Kept { session := Session.start auth } events :=
    Runs.invariant (I := Kept) (P := Kept) (fun _ e h => kept_step h e) (fun _ h => h)
      (kept_start auth) events
  exact h.last

/-- The session behind the socket takes a step of its own, or none. -/
theorem session_step (node : Node) (l : Link) (e : Event) :
    (step node l e).session = l.session ∨
      ∃ frame, (step node l e).session = Sessions.step node l.session frame := by
  cases e with
  | call c => exact .inl (send_session _)
  | cancel p =>
    left
    simp only [step]
    split
    · split_ifs
      · exact send_session _
      · rfl
    · rfl
  | handle i now hosts =>
    simp only [step]
    split
    · next f _ => exact .inr ⟨.frame now hosts (some f), rfl⟩
    · exact .inl rfl
  | resume x result => exact .inr ⟨.resume x result, rfl⟩
  | hangUp => exact .inr ⟨.close, rfl⟩
  | message =>
    left
    simp only [step]
    split_ifs
    · split <;> rfl
    · rfl
  | closing =>
    left
    simp only [step]
    split_ifs <;> rfl
  | onclose =>
    left
    simp only [step]
    split_ifs <;> rfl

/-- What holds of every run of a session holds of the one behind the socket. -/
theorem session_linked (node : Node) (auth : Auth) (events : List Event) :
    ∃ frames, (linked node auth events).session =
      Runs.run (Sessions.step node) (Session.start auth) frames := by
  induction events using List.reverseRecOn with
  | nil => exact ⟨[], rfl⟩
  | append_singleton events e ih =>
    obtain ⟨frames, hframes⟩ := ih
    have hlinked : linked node auth (events ++ [e]) = step node (linked node auth events) e := by
      simp [linked, Runs.run]
    rw [hlinked]
    rcases session_step node (linked node auth events) e with hsame | ⟨frame, hframe⟩
    · exact ⟨frames, hsame.trans hframes⟩
    · refine ⟨frames ++ [frame], ?_⟩
      rw [hframe, hframes]
      simp [Runs.run]

/-- A socket that is closed settles nothing more. -/
theorem closed_step (hclosed : l.socket.readyState = .closed) (e : Event) :
    (step node l e).socket.readyState = .closed ∧
      (step node l e).socket.settled = l.socket.settled := by
  have hno : ¬ l.socket.readyState = .opened := by
    rw [hclosed]
    exact ReadyState.noConfusion
  cases e with
  | call c =>
    simp only [step, send_socket]
    exact ⟨hclosed, rfl⟩
  | cancel p =>
    simp only [step]
    split
    · split_ifs
      · rw [send_socket]
        exact ⟨hclosed, rfl⟩
      · exact ⟨hclosed, rfl⟩
    · exact ⟨hclosed, rfl⟩
  | handle i now hosts =>
    simp only [step]
    split <;> exact ⟨hclosed, rfl⟩
  | resume x result => exact ⟨hclosed, rfl⟩
  | hangUp => exact ⟨hclosed, rfl⟩
  | message =>
    rw [step, if_neg hno]
    exact ⟨hclosed, rfl⟩
  | closing =>
    rw [step, if_neg hno]
    exact ⟨hclosed, rfl⟩
  | onclose =>
    rw [step, if_pos hclosed]
    exact ⟨hclosed, rfl⟩

theorem closed_run (hclosed : l.socket.readyState = .closed) (events : List Event) :
    (Runs.run (step node) l events).socket.settled = l.socket.settled := by
  induction events generalizing l with
  | nil => rfl
  | cons e events ih =>
    obtain ⟨hstate, hsame⟩ := @closed_step node l hclosed e
    exact (ih hstate).trans hsame

end Link

/-- The frame is on its way, or its answer is awaited, or has yet to be heard. -/
def Underway (l : Link) (f : WsFrame) : Prop :=
  f ∈ l.sent ∨ (∃ x ∈ l.session.waiting, Awaits f x) ∨ ∃ r ∈ l.unheard, Suits f r

/-- What calls can count on, the first `2 ^ 53 - 1` of them: no promise is settled twice; it is
settled by the one reply to its own frame, if not by the close; and none is forgotten while the
socket is open. -/
structure Promised (l : Link) : Prop where
  once : (l.socket.settled.map (·.1)).Nodup
  own : ∀ {p o}, (p, o) ∈ l.socket.settled → p + 1 < 2 ^ 53 → o = .connectionClosed ∨
    ∃ f r, l.socket.calls[p]? = some f ∧ r ∈ l.session.replies ∧ Suits f r ∧ o = outcome r
  single : ∀ {k}, k < 2 ^ 53 → l.session.replies.countP (fun r => replyId r = some k) ≤ 1
  underway : l.socket.readyState = .opened → ∀ {p f}, l.socket.calls[p]? = some f →
    p + 1 < 2 ^ 53 → l.socket.Settled p ∨ Underway l f

section Promises

variable {l : Link} {p : Nat}

theorem Kept.own (h : Kept l) {o : Outcome} (hset : (p, o) ∈ l.socket.settled)
    (hsmall : p + 1 < 2 ^ 53) : o = .connectionClosed ∨
      ∃ f r, l.socket.calls[p]? = some f ∧ r ∈ l.session.replies ∧ Suits f r ∧ o = outcome r := by
  rcases h.answered hset with hclosed | ⟨r, hr, ho, hid⟩
  · exact .inl hclosed
  · have hmem : r ∈ l.session.replies := h.heard.subset hr
    obtain ⟨f, hf, hsuits⟩ := h.replies r hmem
    have hfid : f.id = p + 1 := by
      have := hsuits.1
      rw [hid, Option.some.injEq] at this
      omega
    exact .inr ⟨f, r, h.call_of_id hf hfid hsmall, hmem, hsuits, ho⟩

theorem Kept.underway (h : Kept l) (hopen : l.socket.readyState = .opened) {f : WsFrame}
    (hf : l.socket.calls[p]? = some f) (hsmall : p + 1 < 2 ^ 53) :
    l.socket.Settled p ∨ Underway l f := by
  have hp := (List.getElem?_eq_some_iff.mp hf).1
  have hplaces : places l (p + 1) = 1 := h.asked hopen (Nat.succ_pos p) hp hsmall
  -- a call with the id of `p` is `p`
  have hunique : ∀ g ∈ l.socket.calls, g.id = p + 1 → g = f := by
    intro g hg hid
    have := h.call_of_id hg hid hsmall
    rw [hf] at this
    exact (Option.some.inj this).symm
  have hsome : 0 < l.sent.countP (fun f => f.cancel = false ∧ f.id = p + 1) ∨
      0 < l.session.waiting.countP (fun x => waitingId x = p + 1) ∨
      0 < l.session.replies.countP (fun r => replyId r = some (p + 1)) := by
    rw [places] at hplaces
    omega
  rcases hsome with hsent | hwaiting | hreplies
  · obtain ⟨g, hg, hgp⟩ := List.countP_pos_iff.mp hsent
    obtain ⟨hcancel, hid⟩ := of_decide_eq_true hgp
    rw [← hunique g (h.sent g hg hcancel) hid]
    exact .inr (.inl hg)
  · obtain ⟨x, hx, hxp⟩ := List.countP_pos_iff.mp hwaiting
    obtain ⟨g, hg, hawaits⟩ := h.waiting x hx
    rw [← hunique g hg (hawaits.1.symm.trans (of_decide_eq_true hxp))]
    exact .inr (.inr (.inl ⟨x, hx, hawaits⟩))
  · obtain ⟨r, hr, hrp⟩ := List.countP_pos_iff.mp hreplies
    have hid := of_decide_eq_true hrp
    obtain ⟨g, hg, hsuits⟩ := h.replies r hr
    rw [← h.unheard_append] at hr
    rcases List.mem_append.mp hr with hunheard | hheard
    · rw [← hunique g hg (Option.some.inj (hsuits.1.symm.trans hid))]
      exact .inr (.inr (.inr ⟨r, hunheard, hsuits⟩))
    · exact .inl (h.settles hheard hid hsmall)

theorem Kept.promised (h : Kept l) : Promised l where
  once := h.numbered.once
  own := h.own
  single hk := by
    have := h.single hk
    rw [places] at this
    omega
  underway hopen := h.underway hopen

/-- The close settles every promise there is. -/
theorem Kept.settled_close (h : Kept l) (hsmall : p + 1 < 2 ^ 53) :
    l.socket.onclose.Settled p ↔ p < l.socket.calls.length := by
  constructor
  · exact h.numbered.onclose.bound
  · intro hp
    rcases h.numbered.held hp hsmall with hset | hpend
    · exact settled_onclose.mpr (.inr hset)
    · exact settled_onclose.mpr (.inl ⟨_, hpend⟩)

/-- Promises are kept in whatever order frames are handled, handlers resumed and replies heard. As
the socket closes, those that remain are settled; what is asked of it later never is. What is behind
the socket is a session that takes the server's steps. -/
theorem promises_settle (node : Node) (auth : Auth) (before after : List Event) :
    Promised (linked node auth before) ∧
      ((linked node auth before).socket.readyState ≠ .closed → ∀ p, p + 1 < 2 ^ 53 →
        ((linked node auth (before ++ .onclose :: after)).socket.Settled p ↔
          p < (linked node auth before).socket.calls.length)) ∧
      ∃ frames, (linked node auth before).session =
        Runs.run (Sessions.step node) (Session.start auth) frames := by
  have h := kept_linked node auth before
  refine ⟨h.promised, fun hstate p hsmall => ?_, session_linked node auth before⟩
  have hrun : linked node auth (before ++ .onclose :: after) =
      Runs.run (step node) (step node (linked node auth before) .onclose) after := by
    simp [linked, Runs.run]
  have hclose : step node (linked node auth before) .onclose =
      { linked node auth before with socket := (linked node auth before).socket.onclose } :=
    if_neg hstate
  rw [← h.settled_close hsmall, hrun, FafoSocket.Settled, closed_run (by rw [hclose]; rfl), hclose]
  rfl

theorem promises_settle_late :
    (linked ⟨none, fun _ => none, true⟩ .root
        [.call .clearWill, .onclose, .call .clearWill]).socket.Settled 0 ∧
      ¬ (linked ⟨none, fun _ => none, true⟩ .root
        [.call .clearWill, .onclose, .call .clearWill]).socket.Settled 1 := by
  have h := (promises_settle ⟨none, fun _ => none, true⟩ .root [.call .clearWill]
    [.call .clearWill]).2.1 (by decide)
  refine ⟨(h 0 (by decide)).mpr (by decide), fun hset => ?_⟩
  exact absurd ((h 1 (by decide)).mp hset) (by decide)

end Promises

end Fafo.Client
