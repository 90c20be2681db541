import Mathlib.Data.List.Basic
import Mathlib.Algebra.Group.Nat.Defs
import Std.Data.String.ToNat
import Fafo.Store

/-! Boots over any of the blob stores: the nonce a node draws, and the ids it then issues. -/
namespace Fafo.Boot

open Interleave

/-- The blob stores a node runs on. -/
inductive Backend where
  | fs
  | r2
  | mem
  deriving DecidableEq, Repr

/-- The two counters of a node whose values become ids: `ship_seq` and the connection id. -/
inductive Counter where
  | ship
  | conn
  deriving DecidableEq, Repr

def Counter.first : Counter → Nat
  | ship => 0
  | conn => 1

abbrev Bytes := List UInt8

def fnv1a (bytes : Bytes) : UInt64 :=
  bytes.foldl (fun h b => (h ^^^ b.toUInt64) * 0x100000001b3) 0xcbf29ce484222325

/-- Eight hexadecimal digits. -/
def hex8 (h : UInt32) : String :=
  String.ofList ((List.range 8).map fun k => Nat.digitChar (h.toNat / 16 ^ (7 - k) % 16))

def addressHash (advertise : Bytes) : UInt32 := (fnv1a advertise).toUInt32

def bootKey (advertise : Bytes) : String := "_boot/" ++ hex8 (addressHash advertise)

/-- A boot of a node as something it runs sees it. The tag is set late in `start`, so for a while
there is no nonce to name the boot by. -/
structure Node (β : Type) where
  boot : β
  advertise : Bytes
  nonce : Option Nat

variable {β : Type}

def Node.tag (n : Node β) : String :=
  match n.nonce with
  | none => "boot"
  | some nonce => hex8 (addressHash n.advertise) ++ "b" ++ toString nonce

/-- A staging id, or the session id of a will. -/
def Node.id (n : Node β) (value : Nat) : String := n.tag ++ "-" ++ toString value

/-- `get` and `put` are those of the file system and of R2; `version` and `put_cas` are the ones
`MemBlobStore` has of its own. The others work on the memory of a process: `tag` and `setTag` on its
`OnceLock`, `ship` takes a staging id, `connect` opens a connection, `session` is a frame or a close
that makes out the session id of one, and `poll` is a poll over plain HTTP. -/
inductive Op (β : Type) where
  | get (key : String)
  | put (key : String) (bytes : Bytes)
  | version (key : String)
  | putCas (key : String) (expected : Nat) (bytes : Bytes)
  | tag (boot : β)
  | setTag (boot : β) (nonce : Nat)
  | ship (n : Node β)
  | connect (boot : β)
  | session (n : Node β) (conn : Nat)
  | poll (boot : β)

def Op.Answer : Op β → Type
  | get _ => Except Error (Option Bytes)
  | put _ _ => Except Error Unit
  | version _ => Except Error Nat
  | putCas _ _ _ => Except Error (Option Nat)
  | tag _ => Option Nat
  | setTag _ _ => Unit
  | ship _ => Unit
  | connect _ => Unit
  | session _ _ => Unit
  | poll _ => Unit

abbrev sig (β : Type) : Signature := ⟨Op β, Op.Answer⟩

/-- A boat, or a use of a session id, with its number. -/
structure Issue (β : Type) where
  node : Node β
  value : Nat

def Issue.id (x : Issue β) : String := x.node.id x.value

/-- Durable blobs and versions, the tags and the counters of each boot, its connections, and the ids
used so far. Every boot is a process of its own, so its counters start anew. -/
structure World (β : Type) where
  blobs : Blobs String Bytes := ∅
  versions : Blobs String Nat := ∅
  tags : β → Option Nat := fun _ => none
  next : Counter → β → Nat := fun c _ => c.first
  opened : List (β × Nat) := []
  issued : Counter → List (Issue β) := fun _ => []

section Machine

variable [DecidableEq β]

namespace World

/-- The high-water mark of a key's versions. -/
def highWater (w : World β) (key : String) : Nat := (w.versions.lookup key).getD 0

def version (w : World β) (key : String) : Nat :=
  if (w.blobs.lookup key).isSome then w.highWater key else 0

def put (w : World β) (key : String) (bytes : Bytes) : World β :=
  { w with blobs := w.blobs.insert key bytes }

def putCas (w : World β) (key : String) (expected : Nat) (bytes : Bytes) :
    Option Nat × World β :=
  if w.version key ≠ expected then (none, w) else
  let v := w.highWater key + 1
  (some v, { w.put key bytes with versions := w.versions.insert key v })

/-- `fetch_add` on a counter. -/
def advance (w : World β) (c : Counter) (boot : β) : World β :=
  { w with next := Function.update w.next c (Function.update (w.next c) boot (w.next c boot + 1)) }

/-- A `OnceLock` takes the first value only. -/
def setTag (w : World β) (boot : β) (nonce : Nat) : World β :=
  if (w.tags boot).isSome then w else
  { w with tags := Function.update w.tags boot (some nonce) }

def issue (w : World β) (c : Counter) (n : Node β) (value : Nat) : World β :=
  { w with issued := Function.update w.issued c (⟨n, value⟩ :: w.issued c) }

def ship (w : World β) (n : Node β) : World β :=
  (w.issue .ship n (w.next .ship n.boot)).advance .ship n.boot

def connect (w : World β) (boot : β) : World β :=
  { w.advance .conn boot with opened := (boot, w.next .conn boot) :: w.opened }

/-- A frame comes over a connection that is there. -/
def session (w : World β) (n : Node β) (conn : Nat) : World β :=
  if (n.boot, conn) ∈ w.opened then w.issue .conn n conn else w

end World

/-- An operation that works, that fails, or that takes effect and reports an error. -/
def faulty {α : Type} (fault : Fault) (r : α × World β) (w : World β) : Except Error α × World β :=
  match fault with
  | .none => (.ok r.1, r.2)
  | .failed => (.error .unavailable, w)
  | .lost => (.error .unavailable, r.2)

def exec (fault : Fault) : (o : Op β) → World β → o.Answer × World β
  | .get key, w => faulty fault (w.blobs.lookup key, w) w
  | .put key bytes, w => faulty fault ((), w.put key bytes) w
  | .version key, w => faulty fault (w.version key, w) w
  | .putCas key expected bytes, w => faulty fault (w.putCas key expected bytes) w
  | .tag boot, w => (w.tags boot, w)
  | .setTag boot nonce, w => ((), w.setTag boot nonce)
  | .ship n, w => ((), w.ship n)
  | .connect boot, w => ((), w.connect boot)
  | .session n conn, w => ((), w.session n conn)
  | .poll boot, w => ((), w.advance .conn boot)

def machine : Machine (sig β) (World β) Fault := ⟨exec⟩

end Machine

abbrev Task (β α : Type) := Prog (sig β) α

def version (b : Backend) (key : String) : Task β (Except Error Nat) :=
  match b with
  | .mem => .call (Op.version key) .ret
  | .fs | .r2 =>
    (Prog.call (Op.get key) Prog.ret : Task β (Except Error (Option Bytes))).attempt fun bytes =>
      .ret (.ok (if bytes.isSome then 1 else 0))

/-- The default `put_cas` is a check, a write and a read. -/
def putCas (b : Backend) (key : String) (expected : Nat) (bytes : Bytes) :
    Task β (Except Error (Option Nat)) :=
  match b with
  | .mem => .call (Op.putCas key expected bytes) .ret
  | .fs | .r2 =>
    (version b key).attempt fun v =>
      if v ≠ expected then .ret (.ok none) else
      (Prog.call (Op.put key bytes) Prog.ret : Task β (Except Error Unit)).attempt fun _ =>
        (version b key).attempt fun v => .ret (.ok (some v))

/-- The loop that draws the nonce, which is 0 until an attempt wins; the source gives it 64. -/
def drawNonce (b : Backend) (key : String) (bytes : Bytes) : Nat → Task β Nat
  | 0 => .ret 0
  | attempts + 1 =>
    (version b key).bind fun v =>
      (putCas b key (match v with | .ok v => v | .error _ => 0) bytes).bind fun r =>
        match r with
        | .ok (some v) => .ret v
        | _ => drawNonce b key bytes attempts

/-- How `start` names the boot. -/
def start (b : Backend) (i : β) (advertise : Bytes) : Task β Unit :=
  (drawNonce b (bootKey advertise) advertise 64).bind fun nonce =>
    .call (Op.setTag i nonce) .ret

/-- What the tasks of a node do that takes an id. A frame or a close names its connection. -/
inductive Work where
  | ship
  | connect
  | session (conn : Nat)
  | poll

def serve (i : β) (advertise : Bytes) : List Work → Task β Unit
  | [] => .ret ()
  | .ship :: work =>
    .call (Op.tag i) fun nonce => .call (Op.ship ⟨i, advertise, nonce⟩) fun _ =>
      serve i advertise work
  | .connect :: work => .call (Op.connect i) fun _ => serve i advertise work
  | .session conn :: work =>
    .call (Op.tag i) fun nonce => .call (Op.session ⟨i, advertise, nonce⟩ conn) fun _ =>
      serve i advertise work
  | .poll :: work => .call (Op.poll i) fun _ => serve i advertise work

/-- A boot: the address it advertises, and what each of its tasks would do before it crashes. -/
structure Plan where
  advertise : Bytes
  work : Nat → List Work

/-- The processes: `start` of every boot there will ever be, and the tasks of each. HTTP is served
before `start` names the boot, so they run next to each other; the schedule says how far each of
them gets. -/
abbrev Fleet (β : Type) := Config (sig β) (World β) (β × Option Nat) Unit

def Plan.process (b : Backend) (p : Plan) (i : β) : Option Nat → Task β Unit
  | none => start b i p.advertise
  | some task => serve i p.advertise (p.work task)

def startFleet (b : Backend) (plan : β → Plan) : Fleet β :=
  ⟨{}, fun m => .start ((plan m.1).process b m.1 m.2)⟩

end Fafo.Boot
