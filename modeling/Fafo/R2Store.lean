import Fafo.FsStore
import Fafo.PointOps

/-! The blob store at R2: its requests, what comes of them on the way, and the retries. -/
namespace Fafo.R2

open Interleave
open FsStore (Bytes sortKeys)
open Listing (Name)

/-- What is asked of the endpoint. A put may be for a key that is not there yet only, by
`if-none-match: *`. -/
inductive Request where
  | get (key : Name)
  | put (key : Name) (bytes : Bytes) (ifNoneMatch : Bool)
  | delete (key : Name)
  | list (pre : Name) (token : Option Name)

/-- The body is read as bytes or as text. -/
structure Reply where
  status : Nat
  bytes : Bytes := []
  text : Name := []

/-- R2 itself, which is not part of the program: what it answers to a request, and what it leaves in
the bucket. What is up to R2 is a whim. -/
structure Service (ν : Type) where
  serve : ν → Request → Blobs Name Bytes → Reply × Blobs Name Bytes

/-- What a request does to the bucket if it is carried out. -/
def Request.effect (blobs : Blobs Name Bytes) : Request → Blobs Name Bytes
  | get _ => blobs
  | put key bytes ifNoneMatch =>
    if ifNoneMatch && (blobs.lookup key).isSome then blobs else blobs.insert key bytes
  | delete key => blobs.erase key
  | list _ _ => blobs

/-- What comes of a request: it is answered, or it arrives or not and no answer comes back. -/
inductive Fate where
  | answered
  | silent (arrives : Bool)

/-- Before a request, others that were sent at any time may arrive, for the first time or again. -/
structure Chance (ν : Type) where
  late : List (Nat × ν) := []
  whim : ν
  fate : Fate := .answered

/-- The bucket, every request that was ever on the wire, and the keys of the conditional puts that
were answered with 409. -/
structure Bucket where
  blobs : Blobs Name Bytes := ∅
  sent : List Request := []
  conflicts : List Name := []

abbrev wire : Signature := ⟨Request, fun _ => Option Reply⟩

/-- The key, if a conditional put has met another. -/
def conflictOf : Request → Reply → Option Name
  | .put key _ true, reply => if reply.status = 409 then some key else none
  | _, _ => none

namespace Service

variable {ν : Type} (R : Service ν)

def arrive (sent : List Request) (blobs : Blobs Name Bytes) (l : Nat × ν) : Blobs Name Bytes :=
  match sent[l.1]? with
  | some r => (R.serve l.2 r blobs).2
  | none => blobs

/-- The bucket when a request gets there. -/
def atArrival (s : Bucket) (late : List (Nat × ν)) : Blobs Name Bytes :=
  late.foldl (R.arrive s.sent) s.blobs

def exec (e : Chance ν) (r : Request) (s : Bucket) : Option Reply × Bucket :=
  let blobs := R.atArrival s e.late
  let served := R.serve e.whim r blobs
  match e.fate with
  | .answered =>
    (some served.1, ⟨served.2, r :: s.sent, (conflictOf r served.1).toList ++ s.conflicts⟩)
  | .silent arrives => (none, ⟨if arrives then served.2 else blobs, r :: s.sent, s.conflicts⟩)

def endpoint : Machine wire Bucket (Chance ν) := ⟨R.exec⟩

end Service

/-- Why a call fails. What is said is said of the last attempt. -/
inductive Failure where
  | noAttempts
  | transport
  | transient
  | said (message : Name)
  | endless

abbrev Call (α : Type) := Prog wire (Except Failure α)

def retries : Nat := 3

/-- What follows an attempt: `ok none` is transient, and an error is tried again as well. -/
def afterAttempt {α : Type} (again : Failure → Call α) : Except Failure (Option α) → Call α
  | .ok (some v) => .ret (.ok v)
  | .ok none => again .transient
  | .error err => again err

/-- The attempts that are left. -/
def withRetries {α : Type} (op : Call (Option α)) : Nat → Failure → Call α
  | 0, last => .ret (.error last)
  | left + 1, _ => op.bind (afterAttempt (withRetries op left))

/-- `anyhow::bail!("R2 GET {key}: {s}: {}", resp.text().await?)`, and for the other operations. -/
def bail {α : Type} (op about : Name) (reply : Reply) : Except Failure α :=
  .error (.said (['R', '2', ' '] ++ op ++ [' '] ++ about ++ [':', ' '] ++
    Nat.toDigits 10 reply.status ++ [':', ' '] ++ reply.text))

/-- What an attempt comes to, if its reply is read so. -/
def received {α : Type} (read : Reply → Except Failure (Option α)) :
    Option Reply → Except Failure (Option α)
  | some reply => read reply
  | none => .error .transport

def request {α : Type} (r : Request) (read : Reply → Except Failure (Option α)) :
    Call (Option α) :=
  .call (r : wire.Op) fun reply => .ret (received read reply)

/-- A status that no operation has a use for. -/
def otherwise {α : Type} (op about : Name) (reply : Reply) : Except Failure (Option α) :=
  if 500 ≤ reply.status then .ok none else bail op about reply

def onGet (key : Name) (reply : Reply) : Except Failure (Option (Option Bytes)) :=
  if reply.status = 200 then .ok (some (some reply.bytes))
  else if reply.status = 404 then .ok (some none)
  else otherwise ['G', 'E', 'T'] key reply

def onPut (key : Name) (reply : Reply) : Except Failure (Option Unit) :=
  if reply.status = 200 then .ok (some ())
  else otherwise ['P', 'U', 'T'] key reply

def onDelete (key : Name) (reply : Reply) : Except Failure (Option Unit) :=
  if reply.status = 200 ∨ reply.status = 204 ∨ reply.status = 404 then .ok (some ())
  else otherwise ['D', 'E', 'L', 'E', 'T', 'E'] key reply

def onList (pre : Name) (reply : Reply) : Except Failure (Option Name) :=
  if reply.status = 200 then .ok (some reply.text)
  else otherwise ['L', 'I', 'S', 'T'] pre reply

def onCreate (key : Name) (reply : Reply) : Except Failure (Option Bool) :=
  if reply.status = 200 then .ok (some true)
  else if reply.status = 412 ∨ reply.status = 409 then .ok (some false)
  else otherwise ['C', 'R', 'E', 'A', 'T', 'E'] key reply

/-- The request that each operation makes, up to three times. -/
def sends : PointOp Name Bytes → Request
  | .get key => .get key
  | .put key bytes => .put key bytes false
  | .delete key => .delete key
  | .create key bytes => .put key bytes true

/-- How an operation reads a reply. -/
def reads : (o : PointOp Name Bytes) → Reply → Except Failure (Option o.op.Value)
  | .get key => onGet key
  | .put key _ => onPut key
  | .delete key => onDelete key
  | .create key _ => onCreate key

def carryOut (o : PointOp Name Bytes) : Call o.op.Value :=
  withRetries (request (sends o) (reads o)) retries .noAttempts

def R2BlobStore.get (key : Name) : Call (Option Bytes) := carryOut (.get key)
def R2BlobStore.put (key : Name) (bytes : Bytes) : Call Unit := carryOut (.put key bytes)
def R2BlobStore.delete (key : Name) : Call Unit := carryOut (.delete key)
def R2BlobStore.create (key : Name) (bytes : Bytes) : Call Bool := carryOut (.create key bytes)

def mark (tag : Name) : Name := '<' :: tag ++ ['>']

namespace Tag

def key : Name := ['K', 'e', 'y']
def isTruncated : Name := ['I', 's', 'T', 'r', 'u', 'n', 'c', 'a', 't', 'e', 'd']
def nextContinuationToken : Name :=
  ['N', 'e', 'x', 't', 'C', 'o', 'n', 't', 'i', 'n', 'u', 'a', 't', 'i', 'o', 'n', 'T', 'o', 'k',
    'e', 'n']

end Tag

def boolText : Bool → Name
  | true => ['t', 'r', 'u', 'e']
  | false => ['f', 'a', 'l', 's', 'e']

/-- What comes before the first occurrence of a pattern, and what comes after it. -/
def find (pat : Name) : Name → Option (Name × Name)
  | [] => (pat.isPrefixOf? []).map fun rest => ([], rest)
  | c :: cs =>
    match pat.isPrefixOf? (c :: cs) with
    | some rest => some ([], rest)
    | none => (find pat cs).map fun found => (c :: found.1, found.2)

/-- The elements that are left; there are no more than characters. -/
def extractFrom (tag : Name) : Nat → Name → List Name
  | 0, _ => []
  | left + 1, rest =>
    match find (mark tag) rest with
    | none => []
    | some (_, after) =>
      match find (mark ('/' :: tag)) after with
      | none => []
      | some (text, rest) => text :: extractFrom tag left rest

def extractTags (xml tag : Name) : List Name := extractFrom tag xml.length xml

/-- The pages that are left, of a caller with a limit of its own. -/
def listFrom (pre : Name) : Nat → List Name → Option Name → Call (List Name)
  | 0, _, _ => .ret (.error .endless)
  | pages + 1, keys, token =>
    (withRetries (request (.list pre token) (onList pre)) retries .noAttempts).attempt fun xml =>
      let keys := keys ++ extractTags xml Tag.key
      if (extractTags xml Tag.isTruncated).head? = some (boolText true) then
        match (extractTags xml Tag.nextContinuationToken).head? with
        | none => .ret (.ok (sortKeys keys))
        | some token => listFrom pre pages keys (some token)
      else .ret (.ok (sortKeys keys))

def R2BlobStore.list (pages : Nat) (pre : Name) : Call (List Name) := listFrom pre pages [] none

end Fafo.R2
