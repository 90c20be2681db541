import Fafo.Library.Runs
import Fafo.Routing

/-! WebSocket sessions of capability holders: the token check at the upgrade, and the frames that
are handled under it from then on. -/
namespace Fafo.Sessions

open Submission

structure Grant where
  objects : String
  verbs : List String
  deriving DecidableEq, Repr

structure Capability where
  grants : List Grant
  exp : Nat
  sub : Option String := none
  deriving DecidableEq, Repr

/-- A pattern is an object id, or a prefix followed by a star. -/
def patternMatches (pattern object : String) : Bool :=
  if pattern.toList.getLast? = some '*' then pattern.toList.dropLast.isPrefixOf object.toList
  else pattern == object

def verbCovered (granted : List String) (asked : String) : Bool :=
  if asked ∈ ["insert", "update", "delete", "ddl"] then
    granted.contains asked || granted.contains "write"
  else if asked = "write" then
    ["write", "insert", "update", "delete", "ddl"].any fun v => granted.contains v
  else granted.contains asked

def allows (cap : Capability) (object verb : String) : Bool :=
  cap.grants.any fun g => verbCovered g.verbs verb && patternMatches g.objects object

inductive Auth where
  | root
  | cap (c : Capability)
  deriving DecidableEq, Repr

def Auth.capability : Auth → Option Capability
  | root => none
  | cap c => some c

def authorize (auth : Auth) (objects : List String) (verb : String) : Except ApiError Unit :=
  match auth with
  | .root => .ok ()
  | .cap c =>
    match objects.find? fun o => !allows c o verb with
    | some o => .error ⟨403, "capability does not grant " ++ verb.quote ++ " on " ++ o.quote⟩
    | none => .ok ()

structure WillBody where
  objects : List String := []
  ops : List Op := []
  optimistic : Bool := false
  deriving DecidableEq, Repr

structure PollBody where
  object : String
  sql : String
  durable : Bool := false
  baseline : Option String := none
  deriving DecidableEq, Repr

structure WsFrame where
  id : Nat
  objects : List String := []
  ops : List Op := []
  readOnly : Bool := false
  optimistic : Bool := false
  poll : Option PollBody := none
  cancel : Bool := false
  will : Option WillBody := none
  deriving DecidableEq, Repr

/-- `handled` is for the record: when the frame that armed the will was handled. -/
structure ArmedWill where
  objects : List String
  ops : List Op
  optimistic : Bool
  cap : Option Capability
  handled : Nat
  deriving DecidableEq, Repr

/-- What a frame can have handed on: to the workers, to a worker's poll, or to the will store. -/
inductive Request where
  | txn (cap : Option Capability) (objects : List String) (ops : List Op)
      (readOnly optimistic : Bool)
  | poll (p : PollBody)
  | will (w : ArmedWill)
  deriving DecidableEq, Repr

inductive Reply where
  | badFrame
  | error (id : Nat) (e : ApiError)
  | result (id : Nat)
  | armed (id : Nat)
  | disarmed (id : Nat)
  deriving DecidableEq, Repr

/-- A handler that awaits the outcome of what it handed on. -/
inductive Waiting where
  | txn (id : Nat)
  | poll (id : Nat)
  | arm (id : Nat) (w : ArmedWill)
  | disarm (id : Nat)
  deriving DecidableEq, Repr

/-- A connection. For the record: what its frames handed on and when, and the wills that its close
ran. -/
structure Session where
  auth : Auth
  outstanding : List (Nat × String) := []
  will : Option ArmedWill := none
  waiting : List Waiting := []
  closed : Bool := false
  replies : List Reply := []
  handedOn : List (Nat × Request) := []
  ran : List ArmedWill := []
  deriving Repr

namespace Session

def start (auth : Auth) : Session := { auth }

def reply (s : Session) (r : Reply) : Session := { s with replies := r :: s.replies }

def handOn (s : Session) (now : Nat) (r : Request) : Session :=
  { s with handedOn := (now, r) :: s.handedOn }

def await (s : Session) (x : Waiting) : Session := { s with waiting := x :: s.waiting }

def forget (s : Session) (id : Nat) : Session :=
  { s with outstanding := s.outstanding.filter fun p => p.1 ≠ id }

end Session

/-- The root token, what a token carries if it is well formed and signed with the cluster secret,
and whether wills are kept durably. -/
structure Node where
  apiToken : Option String
  signed : String → Option Capability
  durableWills : Bool

/-- Expired tokens verify as invalid. -/
def verify (node : Node) (now : Nat) (token : String) : Option Capability :=
  (node.signed token).filter fun c => decide (now < c.exp)

def resolveAuth (node : Node) (now : Nat) (rootToken presented : String) : Option Auth :=
  if presented = rootToken then some .root else (verify node now presented).map .cap

/-- The upgrade: the bearer token, or else the first subprotocol token that is good. -/
def wsHandler (node : Node) (now : Nat) (bearer : Option String) (protocols : List String) :
    Option Session :=
  let auth := match node.apiToken with
    | none => some Auth.root
    | some token =>
      (bearer.bind (resolveAuth node now token)).or
        (protocols.findSome? (resolveAuth node now token))
  auth.map Session.start

section Handler

variable (node : Node) (now : Nat) (s : Session)

/-- The objects of a frame or a will, taken from its ops if it names none. -/
def declared (objects : List String) (ops : List Op) : List String :=
  if objects = [] then ops.map (·.object) else objects

def handleWill (id : Nat) (w : WillBody) : Session :=
  if w.ops = [] then { s with will := none }.await (.disarm id) else
  match validateTxn (declared w.objects w.ops) w.ops with
  | .error e => s.reply (.error id e)
  | .ok ids =>
    match authorize s.auth ids "write" with
    | .error e => s.reply (.error id e)
    | .ok _ =>
      let armed : ArmedWill := ⟨ids, w.ops, w.optimistic, s.auth.capability, now⟩
      let s := s.handOn now (.will armed)
      if node.durableWills then s.await (.arm id armed)
      else { s with will := some armed }.reply (.armed id)

/-- `hosts` says whether the object's owner is a worker of this node. -/
def handlePoll (hosts : String → Bool) (id : Nat) (p : PollBody) : Session :=
  match authorize s.auth [p.object] "poll" with
  | .error e => s.reply (.error id e)
  | .ok _ =>
    if !validId p.object then
      (s.forget id).reply (.error id (.badRequest ("invalid object id: " ++ p.object.quote))) else
    if !hosts p.object then
      (s.forget id).reply (.error id (.badRequest ("this node does not own " ++ p.object.quote ++
        " — poll the owning instance (WS: /ws?for=" ++ p.object ++ ")"))) else
    (({ s.forget id with outstanding := (id, p.object) :: (s.forget id).outstanding }).handOn now
      (.poll p)).await (.poll id)

def handleTxn (f : WsFrame) : Session :=
  let objects := declared f.objects f.ops
  match authorize s.auth objects (if f.readOnly then "read" else "write") with
  | .error e => s.reply (.error f.id e)
  | .ok _ =>
    -- `submit_as`: validation, then the routed submission
    match validateTxn objects f.ops with
    | .error e => s.reply (.error f.id e)
    | .ok ids =>
      (s.handOn now (.txn s.auth.capability ids f.ops f.readOnly f.optimistic)).await (.txn f.id)

/-- One frame, up to its first await. -/
def handleWsFrame (hosts : String → Bool) (f : WsFrame) : Session :=
  if f.cancel then s.forget f.id else
  match f.will with
  | some w => handleWill node now s f.id w
  | none =>
    match f.poll with
    | some p => handlePoll now s hosts f.id p
    | none => handleTxn now s f

/-- What a handler does once the outcome of its await is there. -/
def resume (x : Waiting) (result : Except ApiError Unit) : Session :=
  let s := { s with waiting := s.waiting.erase x }
  match x, result with
  | .txn id, .ok _ => s.reply (.result id)
  | .txn id, .error e => s.reply (.error id e)
  | .poll id, .ok _ => (s.forget id).reply (.result id)
  | .poll id, .error e => (s.forget id).reply (.error id e)
  | .arm id w, .ok _ => { s with will := some w }.reply (.armed id)
  | .arm id _, .error e =>
    s.reply (.error id (.internal ("could not persist will: " ++ e.message)))
  | .disarm id, _ => s.reply (.disarmed id)

/-- The socket is gone: the will runs, and the parked polls are swept. -/
def close : Session :=
  { s with will := none, outstanding := [], closed := true, ran := s.will.toList ++ s.ran }

end Handler

/-- Frames arrive in any order of their times, and awaits end in any order. A frame's task may run
after the socket has closed. -/
inductive Event where
  | frame (now : Nat) (hosts : String → Bool) (text : Option WsFrame)
  | resume (x : Waiting) (result : Except ApiError Unit)
  | close

def step (node : Node) (s : Session) : Event → Session
  | .frame now hosts (some f) => handleWsFrame node now s hosts f
  | .frame _ _ none => s.reply .badFrame
  | .resume x result => if x ∈ s.waiting then resume s x result else s
  | .close => if s.closed then s else close s

/-- The checks on a frame, none of which looks at the clock, let it through. -/
def LetThrough (auth : Auth) (hosts : String → Bool) (f : WsFrame) : Prop :=
  f.cancel = false ∧
  match f.will, f.poll with
  | some w, _ => w.ops ≠ [] ∧ ∃ ids, validateTxn (declared w.objects w.ops) w.ops = .ok ids ∧
      authorize auth ids "write" = .ok ()
  | none, some p => authorize auth [p.object] "poll" = .ok () ∧ validId p.object = true ∧
      hosts p.object = true
  | none, none =>
    authorize auth (declared f.objects f.ops) (if f.readOnly then "read" else "write") = .ok () ∧
      ∃ ids, validateTxn (declared f.objects f.ops) f.ops = .ok ids

/-- A transaction, a poll or a will to arm; not a cancel, and not a disarm. -/
def WsFrame.Asks (f : WsFrame) : Prop :=
  f.cancel = false ∧ ∀ w, f.will = some w → w.ops ≠ []

/-- Nothing is handed on, and the client is told why. -/
def Refused (s s' : Session) : Prop :=
  s'.handedOn = s.handedOn ∧ ∃ id e, s'.replies = .error id e :: s.replies

theorem LetThrough.asks {auth : Auth} {hosts : String → Bool} {f : WsFrame}
    (h : LetThrough auth hosts f) : f.Asks := by
  refine ⟨h.1, fun w hw => ?_⟩
  have hwill := h.2
  rw [hw] at hwill
  exact hwill.1

/-- What handling a frame leaves behind: it hands something on, or it was refused. -/
structure Handled (now : Nat) (hosts : String → Bool) (f : WsFrame) (s s' : Session) : Prop where
  same : s'.auth = s.auth ∧ s'.ran = s.ran
  through : LetThrough s.auth hosts f → ∃ r, s'.handedOn = (now, r) :: s.handedOn
  held : ¬ LetThrough s.auth hosts f → f.Asks → Refused s s'
  will : ∀ w, s'.will = some w → s.will = some w ∨ w.handled = now ∧ LetThrough s.auth hosts f
  arming : ∀ id w, .arm id w ∈ s'.waiting → .arm id w ∈ s.waiting ∨
    w.handled = now ∧ LetThrough s.auth hosts f

section Spec

variable (node : Node) (now : Nat) (s : Session) (hosts : String → Bool) (f : WsFrame)

theorem handled_refused (hno : ¬ LetThrough s.auth hosts f) (id : Nat) (e : ApiError) :
    Handled now hosts f s (s.reply (.error id e)) where
  same := ⟨rfl, rfl⟩
  through h := absurd h hno
  held _ _ := ⟨rfl, id, e, rfl⟩
  will _ hw := .inl hw
  arming _ _ hw := .inl hw

theorem handleWill_handled (w : WillBody) (hcancel : f.cancel = false) (hwill : f.will = some w) :
    Handled now hosts f s (handleWill node now s f.id w) := by
  have hthrough : LetThrough s.auth hosts f ↔ w.ops ≠ [] ∧
      ∃ ids, validateTxn (declared w.objects w.ops) w.ops = .ok ids ∧
        authorize s.auth ids "write" = .ok () := by
    simp [LetThrough, hcancel, hwill]
  unfold handleWill
  by_cases hops : w.ops = []
  · -- a disarm
    have hno : ¬ LetThrough s.auth hosts f := fun h => (hthrough.mp h).1 hops
    rw [if_pos hops]
    refine ⟨⟨rfl, rfl⟩, fun h => absurd h hno, fun _ hasks => absurd hops (hasks.2 w hwill),
      fun x hx => (by cases hx), fun id x hx => ?_⟩
    have hmem : Waiting.arm id x ∈ .disarm f.id :: s.waiting := hx
    exact .inl (by simpa using hmem)
  · rw [if_neg hops]
    cases hvalid : validateTxn (declared w.objects w.ops) w.ops with
    | error e =>
      apply handled_refused
      intro h
      obtain ⟨-, ids, hids, -⟩ := hthrough.mp h
      rw [hvalid] at hids
      cases hids
    | ok ids =>
      dsimp only
      cases hauth : authorize s.auth ids "write" with
      | error e =>
        apply handled_refused
        intro h
        obtain ⟨-, ids', hids, hok⟩ := hthrough.mp h
        rw [hvalid] at hids
        cases hids
        rw [hauth] at hok
        cases hok
      | ok u =>
        have hyes : LetThrough s.auth hosts f := hthrough.mpr ⟨hops, ids, hvalid, hauth⟩
        dsimp only
        cases node.durableWills with
        | true =>
          refine ⟨⟨rfl, rfl⟩, fun _ => ⟨_, rfl⟩, fun h => absurd hyes h, fun x hx => .inl hx, ?_⟩
          intro id x hx
          rcases List.mem_cons.mp hx with hx | hx
          · cases hx
            exact .inr ⟨rfl, hyes⟩
          · exact .inl hx
        | false =>
          refine ⟨⟨rfl, rfl⟩, fun _ => ⟨_, rfl⟩, fun h => absurd hyes h, ?_, fun _ _ hx => .inl hx⟩
          intro x hx
          cases hx
          exact .inr ⟨rfl, hyes⟩

theorem handlePoll_handled (p : PollBody) (hcancel : f.cancel = false) (hwill : f.will = none)
    (hpoll : f.poll = some p) : Handled now hosts f s (handlePoll now s hosts f.id p) := by
  have hthrough : LetThrough s.auth hosts f ↔ authorize s.auth [p.object] "poll" = .ok () ∧
      validId p.object = true ∧ hosts p.object = true := by
    simp [LetThrough, hcancel, hwill, hpoll]
  unfold handlePoll
  cases hauth : authorize s.auth [p.object] "poll" with
  | error e =>
    apply handled_refused
    intro h
    have hok := (hthrough.mp h).1
    rw [hauth] at hok
    cases hok
  | ok u =>
    dsimp only
    cases hid : validId p.object with
    | false =>
      have hno : ¬ LetThrough s.auth hosts f := by simp [hthrough, hid]
      exact ⟨⟨rfl, rfl⟩, fun h => absurd h hno, fun _ _ => ⟨rfl, _, _, rfl⟩,
        fun _ hx => .inl hx, fun _ _ hx => .inl hx⟩
    | true =>
      cases hhosts : hosts p.object with
      | false =>
        have hno : ¬ LetThrough s.auth hosts f := by simp [hthrough, hhosts]
        exact ⟨⟨rfl, rfl⟩, fun h => absurd h hno, fun _ _ => ⟨rfl, _, _, rfl⟩,
          fun _ hx => .inl hx, fun _ _ hx => .inl hx⟩
      | true =>
        have hyes : LetThrough s.auth hosts f := hthrough.mpr ⟨hauth, hid, hhosts⟩
        refine ⟨⟨rfl, rfl⟩, fun _ => ⟨_, rfl⟩, fun h => absurd hyes h, fun _ hx => .inl hx, ?_⟩
        intro id x hx
        have hmem : Waiting.arm id x ∈ .poll f.id :: s.waiting := hx
        exact .inl (by simpa using hmem)

theorem handleTxn_handled (hcancel : f.cancel = false) (hwill : f.will = none)
    (hpoll : f.poll = none) : Handled now hosts f s (handleTxn now s f) := by
  have hthrough : LetThrough s.auth hosts f ↔
      authorize s.auth (declared f.objects f.ops) (if f.readOnly then "read" else "write") =
        .ok () ∧ ∃ ids, validateTxn (declared f.objects f.ops) f.ops = .ok ids := by
    simp [LetThrough, hcancel, hwill, hpoll]
  unfold handleTxn
  dsimp only
  cases hauth : authorize s.auth (declared f.objects f.ops)
      (if f.readOnly then "read" else "write") with
  | error e =>
    apply handled_refused
    intro h
    have hok := (hthrough.mp h).1
    rw [hauth] at hok
    cases hok
  | ok u =>
    dsimp only
    cases hvalid : validateTxn (declared f.objects f.ops) f.ops with
    | error e =>
      apply handled_refused
      intro h
      obtain ⟨-, ids, hids⟩ := hthrough.mp h
      rw [hvalid] at hids
      cases hids
    | ok ids =>
      have hyes : LetThrough s.auth hosts f := hthrough.mpr ⟨hauth, ids, hvalid⟩
      refine ⟨⟨rfl, rfl⟩, fun _ => ⟨_, rfl⟩, fun h => absurd hyes h, fun w hw => .inl hw, ?_⟩
      intro id w hw
      have hmem : Waiting.arm id w ∈ .txn f.id :: s.waiting := hw
      exact .inl (by simpa using hmem)

theorem handleWsFrame_handled : Handled now hosts f s (handleWsFrame node now s hosts f) := by
  unfold handleWsFrame
  cases hcancel : f.cancel with
  | true =>
    have hasks : ¬ f.Asks := fun h => Bool.false_ne_true (h.1.symm.trans hcancel)
    exact ⟨⟨rfl, rfl⟩, fun h => absurd h.asks hasks, fun _ h => absurd h hasks,
      fun _ hx => .inl hx, fun _ _ hx => .inl hx⟩
  | false =>
    cases hwill : f.will with
    | some w => exact handleWill_handled node now s hosts f w hcancel hwill
    | none =>
      cases hpoll : f.poll with
      | some p => exact handlePoll_handled now s hosts f p hcancel hwill hpoll
      | none => exact handleTxn_handled now s hosts f hcancel hwill hpoll

end Spec

/-- The wills that the session holds, arms or has run were all armed in time. -/
structure WillsInTime (c : Capability) (s : Session) : Prop where
  auth : s.auth = .cap c
  ran : ∀ w ∈ s.ran, w.handled < c.exp
  will : ∀ w, s.will = some w → w.handled < c.exp
  arming : ∀ id w, .arm id w ∈ s.waiting → w.handled < c.exp

/-- Every transaction, poll or will that is handled when the capability has expired is refused. -/
def LateRefused (node : Node) (c : Capability) (s : Session) : Event → Prop
  | .frame now hosts (some f) =>
    c.exp ≤ now → f.Asks → Refused s (step node s (.frame now hosts (some f)))
  | _ => True

/-- Nothing that comes when the capability has expired passes the checks that do not look at the
clock. -/
def LateUngranted (c : Capability) : Event → Prop
  | .frame now hosts (some f) => c.exp ≤ now → ¬ LetThrough (.cap c) hosts f
  | _ => True

theorem resume_spec (s : Session) (x : Waiting) (result : Except ApiError Unit) :
    (resume s x result).auth = s.auth ∧ (resume s x result).ran = s.ran ∧
    (resume s x result).handedOn = s.handedOn ∧
    (resume s x result).waiting = s.waiting.erase x ∧
    ∀ w, (resume s x result).will = some w → s.will = some w ∨ ∃ id, x = .arm id w := by
  cases x with
  | txn id => cases result <;> exact ⟨rfl, rfl, rfl, rfl, fun _ hw => .inl hw⟩
  | poll id => cases result <;> exact ⟨rfl, rfl, rfl, rfl, fun _ hw => .inl hw⟩
  | disarm id => exact ⟨rfl, rfl, rfl, rfl, fun _ hw => .inl hw⟩
  | arm id w =>
    cases result with
    | error e => exact ⟨rfl, rfl, rfl, rfl, fun _ hw => .inl hw⟩
    | ok u =>
      refine ⟨rfl, rfl, rfl, rfl, fun x hx => .inr ⟨id, ?_⟩⟩
      cases hx
      rfl

section Expiry

variable {node : Node} {c : Capability} {s : Session} {e : Event}

theorem step_auth : (step node s e).auth = s.auth := by
  cases e with
  | frame now hosts text =>
    cases text with
    | none => rfl
    | some f => exact (handleWsFrame_handled node now s hosts f).same.1
  | resume x result =>
    by_cases hx : x ∈ s.waiting
    · simp [step, hx, (resume_spec s x result).1]
    · simp [step, hx]
  | close =>
    by_cases hclosed : s.closed <;> simp [step, close, hclosed]

/-- One event, in a session of the capability, is as the checks without a clock have it. -/
theorem lateRefused_iff (hauth : s.auth = .cap c) :
    LateRefused node c s e ↔ LateUngranted c e := by
  cases e with
  | resume x result => exact Iff.rfl
  | close => exact Iff.rfl
  | frame now hosts text =>
    cases text with
    | none => exact Iff.rfl
    | some f =>
      have hspec := handleWsFrame_handled node now s hosts f
      constructor
      · intro h hlate hthrough
        rw [← hauth] at hthrough
        obtain ⟨r, hr⟩ := hspec.through hthrough
        have hsame : (now, r) :: s.handedOn = s.handedOn :=
          hr.symm.trans (h hlate hthrough.asks).1
        simp at hsame
      · intro h hlate hasks
        exact hspec.held (hauth ▸ h hlate) hasks

theorem willsInTime_step (h : WillsInTime c s) (hgood : LateUngranted c e) :
    WillsInTime c (step node s e) := by
  cases e with
  | frame now hosts text =>
    cases text with
    | none => exact ⟨h.auth, h.ran, h.will, h.arming⟩
    | some f =>
      have hspec := handleWsFrame_handled node now s hosts f
      have hintime : LetThrough s.auth hosts f → now < c.exp := by
        intro hthrough
        rw [h.auth] at hthrough
        exact Nat.lt_of_not_le fun hlate => hgood hlate hthrough
      refine ⟨hspec.same.1.trans h.auth, fun w hw => ?_, fun w hw => ?_, fun id w hw => ?_⟩
      · rw [step, hspec.same.2] at hw
        exact h.ran w hw
      · rcases hspec.will w hw with hw | ⟨hnow, hthrough⟩
        · exact h.will w hw
        · exact hnow ▸ hintime hthrough
      · rcases hspec.arming id w hw with hw | ⟨hnow, hthrough⟩
        · exact h.arming id w hw
        · exact hnow ▸ hintime hthrough
  | resume x result =>
    by_cases hx : x ∈ s.waiting
    · obtain ⟨hauth, hran, -, hwaiting, hwill⟩ := resume_spec s x result
      simp only [step, if_pos hx]
      refine ⟨hauth.trans h.auth, fun w hw => h.ran w (hran ▸ hw), fun w hw => ?_,
        fun id w hw => ?_⟩
      · rcases hwill w hw with hw | ⟨id, rfl⟩
        · exact h.will w hw
        · exact h.arming id w hx
      · rw [hwaiting] at hw
        exact h.arming id w (List.mem_of_mem_erase hw)
    · simpa only [step, if_neg hx] using h
  | close =>
    by_cases hclosed : s.closed
    · simpa only [step, if_pos hclosed] using h
    · simp only [step, if_neg hclosed]
      refine ⟨h.auth, fun w hw => ?_, fun w hw => (by cases hw), h.arming⟩
      rcases List.mem_append.mp hw with hw | hw
      · exact h.will w (Option.mem_toList.mp hw)
      · exact h.ran w hw

end Expiry

theorem resolveAuth_cap {node : Node} {now : Nat} {rootToken presented : String} {c : Capability}
    (h : resolveAuth node now rootToken presented = some (.cap c)) : now < c.exp := by
  rw [resolveAuth] at h
  by_cases hroot : presented = rootToken
  · simp [hroot] at h
  · rw [if_neg hroot, Option.map_eq_some_iff] at h
    obtain ⟨c', hverify, hc⟩ := h
    cases hc
    rw [verify, Option.filter_eq_some_iff] at hverify
    exact of_decide_eq_true hverify.2

/-- The upgrade lets a capability in only while it has not expired. -/
theorem wsHandler_opens {node : Node} {now : Nat} {bearer : Option String}
    {protocols : List String} {s : Session} {c : Capability}
    (h : wsHandler node now bearer protocols = some s) (hcap : s.auth = .cap c) :
    s = Session.start (.cap c) ∧ now < c.exp := by
  rw [wsHandler, Option.map_eq_some_iff] at h
  obtain ⟨auth, hauth, rfl⟩ := h
  cases (show auth = .cap c from hcap)
  refine ⟨rfl, ?_⟩
  cases htoken : node.apiToken with
  | none => simp [htoken] at hauth
  | some token =>
    rw [htoken] at hauth
    rcases Option.or_eq_some_iff.mp hauth with hbearer | ⟨-, hproto⟩
    · obtain ⟨t, -, ht⟩ := Option.bind_eq_some_iff.mp hbearer
      exact resolveAuth_cap ht
    · obtain ⟨t, -, ht⟩ := List.exists_of_findSome?_eq_some hproto
      exact resolveAuth_cap ht

/-- In a session of a capability, whatever is handled after the expiry is refused and only wills
armed before it run, exactly when the checks that do not look at the clock refuse all of it. -/
theorem expiry_bounds_iff (node : Node) (c : Capability) (events : List Event) :
    (Runs.Guarded (step node) (LateRefused node c) (Session.start (.cap c)) events ∧
      Runs.Throughout (step node) (fun s => ∀ w ∈ s.ran, w.handled < c.exp)
        (Session.start (.cap c)) events) ↔
    ∀ e ∈ events, LateUngranted c e := by
  have hguarded : Runs.Guarded (step node) (LateRefused node c) (Session.start (.cap c)) events ↔
      ∀ e ∈ events, LateUngranted c e := by
    apply Runs.guarded_iff_forall (I := fun s => s.auth = .cap c)
    · intro s e h
      exact step_auth.trans h
    · intro s e h
      exact lateRefused_iff h
    · rfl
  have hstart : WillsInTime c (Session.start (.cap c)) :=
    ⟨rfl, fun _ hw => (by cases hw), fun _ hw => (by cases hw), fun _ _ hw => (by cases hw)⟩
  constructor
  · intro h
    exact hguarded.mp h.1
  · intro h
    have hrefused := hguarded.mpr h
    refine ⟨hrefused, hrefused.throughout (fun s e hs hgood => ?_) (fun _ hs => hs.ran) hstart⟩
    exact willsInTime_step hs ((lateRefused_iff hs.auth).mp hgood)

def roomCap : Capability := ⟨[⟨"room", ["write", "poll"]⟩], 10, none⟩

def roomNode : Node where
  apiToken := some "root"
  signed t := if t = "guest" then some roomCap else none
  durableWills := false

def insertFrame : WsFrame := { id := 1, ops := [⟨"room", "INSERT INTO t VALUES (1)"⟩] }

/-- A session opened at 5 with a capability that expires at 10 writes at 20. -/
theorem expired_write_handed_on :
    ∃ s, wsHandler roomNode 5 (some "guest") [] = some s ∧ s.auth = .cap roomCap ∧
      roomCap.exp ≤ 20 ∧ insertFrame.Asks ∧
      (step roomNode s (.frame 20 (fun _ => false) (some insertFrame))).handedOn =
        [(20, .txn (some roomCap) ["room"] insertFrame.ops false false)] ∧
      ¬ Refused s (step roomNode s (.frame 20 (fun _ => false) (some insertFrame))) := by
  have hupgrade : wsHandler roomNode 5 (some "guest") [] = some (Session.start (.cap roomCap)) := by
    rfl
  have hhanded : (step roomNode (Session.start (.cap roomCap))
      (.frame 20 (fun _ => false) (some insertFrame))).handedOn =
        [(20, .txn (some roomCap) ["room"] insertFrame.ops false false)] := by
    decide
  refine ⟨_, hupgrade, rfl, by decide, ⟨rfl, fun w hw => (by cases hw)⟩, hhanded, fun h => ?_⟩
  have hsame := h.1
  rw [hhanded] at hsame
  cases hsame

end Fafo.Sessions
