import Mathlib.Algebra.GroupWithZero.Nat
import Fafo.Objlog

/-! The tasks that run against the log: shipping a boat, compacting, reading durably. -/
namespace Fafo

open Interleave

/-- Why a boat did not commit. -/
inductive ShipError (ι : Type) where
  | store (e : Error)
  | leaseSuperseded
  | nodeFenced
  | wouldErase (object : ι)
  | superseded (object : ι)
  | resolverAborted
  deriving DecidableEq

/-- What a task records as it goes: `abandoned` is a boat that has met an error, `answered` what its
waiters were told. -/
inductive Note (ι τ β : Type) where
  | prewritten (txn : τ) (id : ι) (seq : Nat)
  | abandoned (txn : τ)
  | answered (txn : τ) (err : Option (ShipError ι))
  | folding (reader : τ) (id : ι) (rest : List ι)
  | folded (reader : τ) (id : ι) (rest : List ι)
  | queried (reader : τ) (conns : List (ι × β × Nat))
  deriving DecidableEq

/-- The task that took a note. -/
def Note.by {ι τ β : Type} : Note ι τ β → τ
  | prewritten txn _ _ => txn
  | abandoned txn => txn
  | answered txn _ => txn
  | folding reader _ _ => reader
  | folded reader _ _ => reader
  | queried reader _ => reader

abbrev NotedTask (ι τ β δ α : Type) := LogTask ι τ β δ (Note ι τ β) α

abbrev NotedTry (ι τ β δ α : Type) := LogTry ι τ β δ (Note ι τ β) α

/-- One object's payload aboard a boat, and the committed seq it builds on. -/
structure ShipItem (ι β δ : Type) where
  object : ι
  payload : LogPayload β δ
  expectedSeq : Nat

structure ShipDone (ι : Type) where
  objects : List ι
  ok : Bool
  rebased : Option ι

/-- What a boat is shipped with: the image format, the content fence (does this snapshot lack a
ledger key the durable image has?), and how long a pending lock counts as fresh. -/
structure Yard (β δ : Type) where
  images : Images β δ
  regresses : β → β → Bool
  ttlMs : Nat

def inlineMaxBytes : Nat := 96 * 1024

def logCompactKeep : Nat := 8

variable {ι τ β δ : Type}

section Ship

variable [LinearOrder ι] [DecidableEq τ]

/-- Stage every payload; the first error counts. -/
def stageAll (txn : τ) : List (ShipItem ι β δ) → NotedTask ι τ β δ (Option Error)
  | [] => .ret none
  | item :: items =>
    (Store.put (.staging txn item.object) (.staged item.payload)).bind fun r =>
      (stageAll txn items).bind fun err =>
        match r with
        | .ok _ => .ret err
        | .error e => .ret (some e)

def unstageAll (txn : τ) : List (ShipItem ι β δ) → NotedTask ι τ β δ Unit
  | [] => .ret ()
  | item :: items =>
    (Store.delete (.staging txn item.object)).bind fun _ => unstageAll txn items

/-- The fencing gate: verify the lease at the commit point, then the fenced flag. -/
def gate : NotedTask ι τ β δ (Option (ShipError ι)) :=
  (ask .leasesHeld).bind fun held =>
    if held then
      (ask .fenced).bind fun fenced => .ret (if fenced then some .nodeFenced else none)
    else .ret (some .leaseSuperseded)

/-- Would this snapshot erase a committed ledger key? A fold that fails does not block the ship. -/
def snapshotRegresses (Y : Yard β δ) (id : ι) : LogPayload β δ → NotedTask ι τ β δ Bool
  | .snapshot snapshot =>
    (foldCommitted Y.images id).bind fun r =>
      match r with
      | .ok (durable, _) => .ret (Y.regresses durable snapshot)
      | .error _ => .ret false
  | .delta _ => .ret false

/-- How the prewrites of a boat went: what was placed, and what stopped it. -/
structure Prewrites (ι : Type) where
  prewritten : List (ι × Nat)
  err : Option (ShipError ι)
  rebased : Option ι

/-- Prewrite each item in turn, up to the first refusal. -/
def prewriteAll (Y : Yard β δ) (txn : τ) (born : Nat) : List (ShipItem ι β δ) →
    List (ι × Nat) → NotedTask ι τ β δ (Prewrites ι)
  | [], done => .ret ⟨done, none, none⟩
  | item :: items, done =>
    (snapshotRegresses Y item.object item.payload).bind fun regressed =>
      if regressed then .ret ⟨done, some (.wouldErase item.object), some item.object⟩ else
      (prewrite Y.images item.object txn ⟨txn, born, item.payload⟩ item.expectedSeq born
        Y.ttlMs).bind fun r =>
      match r with
      | .ok (some seq) =>
        (note (.prewritten txn item.object seq)).bind fun _ =>
          prewriteAll Y txn born items (done ++ [(item.object, seq)])
      | .ok none => .ret ⟨done, some (.superseded item.object), some item.object⟩
      | .error e => .ret ⟨done, some (.store e), none⟩

/-- Roll back the entries a failed boat placed. -/
def clearAll (txn : τ) : List (ι × Nat) → NotedTask ι τ β δ Unit
  | [] => .ret ()
  | (id, seq) :: rest => (clearEntry id seq txn).bind fun _ => clearAll txn rest

def compactAll (M : Images β δ) : List ι → NotedTask ι τ β δ Unit
  | [] => .ret ()
  | id :: ids => (compact M id logCompactKeep).bind fun _ => compactAll M ids

/-- The commit landed: ack the waiters, then compact while the lease still holds. -/
def shipped (Y : Yard β δ) (txn : τ) (objects : List ι) : NotedTask ι τ β δ (ShipDone ι) :=
  (note (.answered txn none)).bind fun _ =>
    (ask .leasesHeld).bind fun held =>
      (if held then compactAll Y.images objects else .ret ()).bind fun _ =>
        .ret ⟨objects, true, none⟩

/-- The boat failed: clear its entries and its staging, then refuse the waiters. -/
def shipFailed (txn : τ) (items : List (ShipItem ι β δ)) (inline : Bool)
    (prewritten : List (ι × Nat)) (err : ShipError ι) (rebased : Option ι) :
    NotedTask ι τ β δ (ShipDone ι) :=
  (note (.abandoned txn)).bind fun _ =>
    (clearAll txn prewritten).bind fun _ =>
      (if inline then .ret () else unstageAll txn items).bind fun _ =>
        (note (.answered txn (some err))).bind fun _ =>
          .ret ⟨items.map (·.object), false, rebased⟩

/-- From the gate on: prewrite the items in object order, and commit if all of them took. -/
def shipStaged (Y : Yard β δ) (txn : τ) (items : List (ShipItem ι β δ)) (inline : Bool) :
    NotedTask ι τ β δ (ShipDone ι) :=
  now.bind fun born =>
    (prewriteAll Y txn born (items.insertionSort fun a b => a.object ≤ b.object) []).bind fun p =>
      match p.err with
      | some err => shipFailed txn items inline p.prewritten err p.rebased
      | none =>
        (commitTxn txn).bind fun r =>
          match r with
          | .ok true => shipped Y txn (items.map (·.object))
          | .ok false => shipFailed txn items inline p.prewritten .resolverAborted none
          | .error e => shipFailed txn items inline p.prewritten (.store e) none

/-- Ship one boat under its staging id. -/
def shipTask (Y : Yard β δ) (txn : τ) (items : List (ShipItem ι β δ)) :
    NotedTask ι τ β δ (ShipDone ι) :=
  let inline := decide ((items.map fun item => Y.images.size item.payload).sum ≤ inlineMaxBytes)
  (if inline then .ret none else stageAll txn items : NotedTask ι τ β δ (Option Error)).bind
    fun staged =>
      match staged with
      | some e => shipFailed txn items inline [] (.store e) none
      | none =>
        gate.bind fun err =>
          match err with
          | some err => shipFailed txn items inline [] err none
          | none => shipStaged Y txn items inline

end Ship

/-- The folds of a durable read, one object after another. A connection opened for an id replaces
an earlier one; the ops then run on these private copies only. -/
def durableFolds [DecidableEq ι] (M : Images β δ) (reader : τ) : List ι →
    List (ι × β × Nat) → NotedTry ι τ β δ (List (ι × β × Nat))
  | [], conns => .ret (.ok conns)
  | id :: rest, conns =>
    (note (.folding reader id rest)).bind fun _ =>
      (foldCommitted M id).attempt fun (image, seq) =>
        (note (.folded reader id rest)).bind fun _ =>
          durableFolds M reader rest ((id, image, seq) :: conns)

def durableRead [DecidableEq ι] (M : Images β δ) (reader : τ) (ids : List ι) :
    NotedTry ι τ β δ (List (ι × β × Nat)) :=
  (durableFolds M reader ids []).attempt fun conns =>
    (note (.queried reader conns)).bind fun _ => .ret (.ok conns)

inductive Job (ι β δ : Type) where
  | ship (items : List (ShipItem ι β δ))
  | compact (id : ι) (keep : Nat)
  | read (ids : List ι)

section Jobs

variable [LinearOrder ι] [DecidableEq τ]

/-- A job as the task `who` runs it; `who` is the staging id of a boat. -/
def Job.prog (Y : Yard β δ) (who : τ) : Job ι β δ → NotedTask ι τ β δ Unit
  | ship items => (shipTask Y who items).bind fun _ => .ret ()
  | compact id keep => (Fafo.compact Y.images id keep).bind fun _ => .ret ()
  | read ids => (durableRead Y.images who ids).bind fun _ => .ret ()

abbrev LogWorld (ι τ β δ : Type) := World (Key ι τ) (Blob τ β δ) (Note ι τ β)

abbrev JobConfig (ι τ β δ : Type) :=
  Config (nodeSig (Key ι τ) (Blob τ β δ) (Note ι τ β)) (LogWorld ι τ β δ) τ Unit

/-- An empty store, and one task for each staging id. -/
def startJobs (Y : Yard β δ) (jobs : τ → Job ι β δ) : JobConfig ι τ β δ :=
  ⟨{}, fun who => .start ((jobs who).prog Y who)⟩

end Jobs

end Fafo
