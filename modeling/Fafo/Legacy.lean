import Fafo.Tasks

/-! The commit protocol without the log: staging, the commit record, promotion and recovery. -/
namespace Fafo.Legacy

open Interleave

/-- The suffix of a staged name: `<object>.snap` or `<object>.delta.<counter>`. -/
inductive Kind where
  | snap
  | delta (counter : Nat)
  deriving DecidableEq, Repr

structure Name (ι : Type) where
  object : ι
  kind : Kind
  deriving DecidableEq

/-- `staging/<txn>/<name>`, `txns/<txn>.json`, `objects/<object>` and
`objects/<object>.d.<counter>`. -/
inductive Key (ι τ : Type) where
  | staging (txn : τ) (name : Name ι)
  | record (txn : τ)
  | base (object : ι)
  | delta (object : ι) (counter : Nat)
  deriving DecidableEq

/-- Hex text, by the bytes it decodes to. -/
abbrev Hex (β : Type) := Option β

def hexEncode {β : Type} (bytes : β) : Hex β := some bytes

def hexDecode {β : Type} (text : Hex β) : Option β := text

structure TxnRecord (ι τ β : Type) where
  txnId : τ
  objects : List ι
  inline : List (Name ι × Hex β)

/-- What a key holds: a record, or bytes that do not parse as one. -/
inductive Blob (ι τ β : Type) where
  | record (r : TxnRecord ι τ β)
  | bytes (b : β)

/-- Byte strings: their length, and the change counter in their header. -/
structure Files (β : Type) where
  size : β → Nat
  changeCounter : β → Nat

inductive ShipPayload (β : Type) where
  | snapshot (bytes : β) (gcDeltas : Bool)
  | delta (counter : Nat) (bytes : β)

structure ShipItem (ι β : Type) where
  object : ι
  payload : ShipPayload β

structure ShipDone (ι : Type) where
  objects : List ι
  ok : Bool
  unpromoted : List ι

/-- What a task records as it goes: a staged blob it is about to discard as uncommitted, and what a
boat's waiters were told. -/
inductive Note (ι τ : Type) where
  | discarding (key : Key ι τ)
  | answered (txn : τ) (err : Option (ShipError ι))
  deriving DecidableEq

variable {ι τ β α : Type}

abbrev LegacyTask (ι τ β α : Type) := Task (Key ι τ) (Blob ι τ β) (Note ι τ) α

abbrev LegacyTry (ι τ β α : Type) := Try (Key ι τ) (Blob ι τ β) (Note ι τ) α

abbrev LegacyWorld (ι τ β : Type) := World (Key ι τ) (Blob ι τ β) (Note ι τ)

def ShipPayload.bytes : ShipPayload β → β
  | snapshot bytes _ => bytes
  | delta _ bytes => bytes

namespace ShipItem

def bytes (item : ShipItem ι β) : β := item.payload.bytes

/-- The suffix of the item's staging key. -/
def name (item : ShipItem ι β) : Name ι :=
  match item.payload with
  | .snapshot _ _ => ⟨item.object, .snap⟩
  | .delta counter _ => ⟨item.object, .delta counter⟩

def stagingKey (txn : τ) (item : ShipItem ι β) : Key ι τ := .staging txn item.name

end ShipItem

/-- Where a staged name is promoted to. -/
def Name.home (name : Name ι) : Key ι τ :=
  match name.kind with
  | .snap => .base name.object
  | .delta counter => .delta name.object counter

def Key.stagedName : Key ι τ → Option (Name ι)
  | staging _ name => some name
  | _ => none

def parseRecord : Blob ι τ β → Option (TxnRecord ι τ β)
  | .record r => some r
  | .bytes _ => none

/-- The counter read off a blob's header. -/
def Files.counter (F : Files β) : Blob ι τ β → Nat
  | .record _ => 0
  | .bytes b => F.changeCounter b

section Recovery

/-- `objects/`. -/
def objectsPrefix : Key ι τ → Bool
  | .base _ | .delta _ _ => true
  | _ => false

def txnsPrefix : Key ι τ → Bool
  | .record _ => true
  | _ => false

def allStaging : Key ι τ → Bool
  | .staging _ _ => true
  | _ => false

def stagingPrefix [DecidableEq τ] (txn : τ) : Key ι τ → Bool
  | .staging t _ => t = txn
  | _ => false

/-- A base moves only to a higher counter; a delta is put as it is. -/
def promoteStaged (F : Files β) (name : Name ι) (blob : Blob ι τ β) : LegacyTry ι τ β Unit :=
  match name.kind with
  | .snap =>
    (Store.get (.base name.object)).attempt fun current =>
      if current.any fun held => F.counter blob ≤ F.counter held then .ret (.ok ())
      else Store.put (.base name.object) blob
  | .delta counter => Store.put (.delta name.object counter) blob

/-- Promote what is staged under each listed key, then delete it. -/
def rollStaged (F : Files β) : List (Key ι τ) → LegacyTry ι τ β Unit
  | [] => .ret (.ok ())
  | key :: keys =>
    (Store.get key).attempt fun staged =>
      (match key.stagedName, staged with
        | some name, some blob => promoteStaged F name blob
        | _, _ => .ret (.ok ()) : LegacyTry ι τ β Unit).attempt fun _ =>
        (Store.delete key).attempt fun _ => rollStaged F keys

/-- Promote the payload that lives in the record; text that does not decode is skipped. -/
def rollInline (F : Files β) : List (Name ι × Hex β) → LegacyTry ι τ β Unit
  | [] => .ret (.ok ())
  | (name, hexed) :: rest =>
    (match hexDecode hexed with
      | some blob => promoteStaged F name (.bytes blob)
      | none => .ret (.ok ()) : LegacyTry ι τ β Unit).attempt fun _ => rollInline F rest

variable [DecidableEq τ]

def rollForward (F : Files β) (key : Key ι τ) (record : TxnRecord ι τ β) : LegacyTry ι τ β Unit :=
  (if record.inline.isEmpty then
    (Store.list (stagingPrefix record.txnId)).attempt fun staged => rollStaged F staged
  else rollInline F record.inline : LegacyTry ι τ β Unit).attempt fun _ => Store.delete key

/-- Roll forward each listed record that is wanted. Bytes that are no record are deleted when the
scan tidies up, else skipped. -/
def rollRecords (F : Files β) (wanted : TxnRecord ι τ β → Bool) (tidy : Bool) :
    List (Key ι τ) → LegacyTry ι τ β Unit
  | [] => .ret (.ok ())
  | key :: keys =>
    (Store.get key).attempt fun bytes =>
      match bytes with
      | none => rollRecords F wanted tidy keys
      | some blob =>
        match parseRecord blob with
        | none =>
          (if tidy then Store.delete key else .ret (.ok ()) : LegacyTry ι τ β Unit).attempt
            fun _ => rollRecords F wanted tidy keys
        | some record =>
          (if wanted record then rollForward F key record else .ret (.ok ())).attempt
            fun _ => rollRecords F wanted tidy keys

def recoverRecordsTouching [DecidableEq ι] (F : Files β) (object : ι) : LegacyTry ι τ β Unit :=
  (Store.list txnsPrefix).attempt fun keys =>
    rollRecords F (fun record => object ∈ record.objects) false keys

/-- Discard each listed staging blob. -/
def discardStaging : List (Key ι τ) → LegacyTry ι τ β Unit
  | [] => .ret (.ok ())
  | key :: keys =>
    (note (.discarding key)).bind fun _ =>
      (Store.delete key).attempt fun _ => discardStaging keys

/-- Startup recovery: roll every record forward, then discard all staging. -/
def recover (F : Files β) : LegacyTry ι τ β Unit :=
  (Store.list txnsPrefix).attempt fun keys =>
    (rollRecords F (fun _ => true) true keys).attempt fun _ =>
      (Store.list allStaging).attempt fun keys => discardStaging keys

end Recovery

/-- What a ship task is given. The stagings run in parallel: `landing` is the order in which they
take effect. -/
structure Boat (ι β : Type) where
  items : List (ShipItem ι β)
  landing : List (ShipItem ι β)
  landing_perm : landing.Perm items
  objects_nodup : (items.map (·.object)).Nodup

namespace Boat

def objects (boat : Boat ι β) : List ι := boat.items.map (·.object)

/-- A small boat's payload rides in its record. -/
def inline (F : Files β) (boat : Boat ι β) : Bool :=
  decide ((boat.items.map fun item => F.size item.bytes).sum ≤ inlineMaxBytes)

def record (F : Files β) (txn : τ) (boat : Boat ι β) : TxnRecord ι τ β where
  txnId := txn
  objects := boat.objects
  inline := if boat.inline F then boat.items.map fun item => (item.name, hexEncode item.bytes)
    else []

end Boat

section Ship

/-- Stage every payload; any error counts. -/
def stageAll (txn : τ) : List (ShipItem ι β) → LegacyTask ι τ β (Option Error)
  | [] => .ret none
  | item :: items =>
    (Store.put (item.stagingKey txn) (.bytes item.bytes)).bind fun r =>
      (stageAll txn items).bind fun err =>
        match r with
        | .ok _ => .ret err
        | .error e => .ret (some e)

/-- The fencing gate: verify the lease at the commit point, then the fenced flag. -/
def gate : LegacyTask ι τ β (Option (ShipError ι)) :=
  (ask .leasesHeld).bind fun held =>
    if held then
      (ask .fenced).bind fun fenced => .ret (if fenced then some .nodeFenced else none)
    else .ret (some .leaseSuperseded)

/-- Put every payload where it belongs; the objects whose put failed are unpromoted. -/
def promoteAll : List (ShipItem ι β) → LegacyTask ι τ β (List ι)
  | [] => .ret []
  | item :: items =>
    (Store.put item.name.home (.bytes item.bytes)).bind fun r =>
      (promoteAll items).bind fun unpromoted =>
        match r with
        | .ok _ => .ret unpromoted
        | .error _ => .ret (item.object :: unpromoted)

/-- Delete the staged payloads; errors are ignored. -/
def unstageAll (txn : τ) : List (ShipItem ι β) → LegacyTask ι τ β Unit
  | [] => .ret ()
  | item :: items =>
    (Store.delete (item.stagingKey txn)).bind fun _ => unstageAll txn items

/-- Delete the staged payloads of a boat that did not commit. -/
def discardAll (txn : τ) : List (ShipItem ι β) → LegacyTask ι τ β Unit
  | [] => .ret ()
  | item :: items =>
    (note (.discarding (item.stagingKey txn))).bind fun _ =>
      (Store.delete (item.stagingKey txn)).bind fun _ => discardAll txn items

variable [DecidableEq ι]

def deltaPrefix (object : ι) : Key ι τ → Bool
  | .delta o _ => o = object
  | _ => false

def parseDeltaCounter (object : ι) : Key ι τ → Option Nat
  | .delta o counter => if o = object then some counter else none
  | _ => none

/-- Delete the listed deltas at or below the base's counter. -/
def gcKeys (object : ι) (baseCounter : Nat) : List (Key ι τ) → LegacyTask ι τ β Unit
  | [] => .ret ()
  | key :: keys =>
    if (parseDeltaCounter object key).any fun c => c ≤ baseCounter then
      (Store.delete key).bind fun _ => gcKeys object baseCounter keys
    else gcKeys object baseCounter keys

/-- Delete the deltas that the snapshots of a boat have superseded. -/
def gcAll (F : Files β) : List (ShipItem ι β) → LegacyTask ι τ β Unit
  | [] => .ret ()
  | item :: items =>
    (match item.payload with
      | .snapshot bytes true =>
        (Store.list (deltaPrefix item.object)).bind fun r =>
          match r with
          | .ok keys => gcKeys item.object (F.changeCounter bytes) keys
          | .error _ => .ret ()
      | _ => .ret () : LegacyTask ι τ β Unit).bind fun _ => gcAll F items

/-- The record landed: ack the waiters, promote, and clean up once everything is promoted. -/
def shipped (F : Files β) (txn : τ) (boat : Boat ι β) : LegacyTask ι τ β (ShipDone ι) :=
  (note (.answered txn none)).bind fun _ =>
    (promoteAll boat.items).bind fun unpromoted =>
      (if unpromoted.isEmpty then
        (if boat.inline F then .ret () else unstageAll txn boat.items).bind fun _ =>
          (Store.delete (.record txn)).bind fun _ => gcAll F boat.items
      else .ret () : LegacyTask ι τ β Unit).bind fun _ =>
        .ret ⟨boat.objects, true, unpromoted⟩

omit [DecidableEq ι] in
/-- The boat failed: delete its staging, then refuse the waiters. -/
def shipFailed (F : Files β) (txn : τ) (boat : Boat ι β) (err : ShipError ι) :
    LegacyTask ι τ β (ShipDone ι) :=
  (if boat.inline F then .ret () else discardAll txn boat.items).bind fun _ =>
    (note (.answered txn (some err))).bind fun _ => .ret ⟨boat.objects, false, []⟩

/-- Ship one boat under its staging id. -/
def shipTask (F : Files β) (txn : τ) (boat : Boat ι β) : LegacyTask ι τ β (ShipDone ι) :=
  (if boat.inline F then .ret none else stageAll txn boat.landing :
    LegacyTask ι τ β (Option Error)).bind fun staged =>
    match staged with
    | some e => shipFailed F txn boat (.store e)
    | none =>
      gate.bind fun err =>
        match err with
        | some err => shipFailed F txn boat err
        | none =>
          (Store.put (.record txn) (.record (boat.record F txn))).bind fun r =>
            match r with
            | .ok _ => shipped F txn boat
            | .error e => shipFailed F txn boat (.store e)

end Ship

/-- A recovery: of a booting peer, or before an object is activated. -/
inductive Duty (ι : Type) where
  | boot
  | activation (object : ι)

/-- The tasks: a boat under each staging id, and any number of recoveries. -/
inductive Party (τ ρ : Type) where
  | ship (txn : τ)
  | recovery (r : ρ)
  deriving DecidableEq

section Fleet

variable {ρ : Type} [DecidableEq ι] [DecidableEq τ]

def Duty.prog (F : Files β) : Duty ι → LegacyTry ι τ β Unit
  | boot => recover F
  | activation object => recoverRecordsTouching F object

/-- The records such a recovery rolls forward. -/
def Duty.wants (duty : Duty ι) (objects : List ι) : Prop :=
  match duty with
  | boot => True
  | activation object => object ∈ objects

def Party.prog (F : Files β) (fleet : τ → Boat ι β) (duty : ρ → Duty ι) :
    Party τ ρ → LegacyTry ι τ β Unit
  | ship txn => (shipTask F txn (fleet txn)).bind fun _ => .ret (.ok ())
  | recovery r => (duty r).prog F

abbrev FleetConfig (ι τ ρ β : Type) :=
  Config (nodeSig (Key ι τ) (Blob ι τ β) (Note ι τ)) (LegacyWorld ι τ β) (Party τ ρ)
    (Except Error Unit)

/-- Every task before its first operation. -/
def launch (F : Files β) (fleet : τ → Boat ι β) (duty : ρ → Duty ι)
    (blobs : Blobs (Key ι τ) (Blob ι τ β)) : FleetConfig ι τ ρ β :=
  ⟨{ blobs := blobs }, fun who => .start (who.prog F fleet duty)⟩

end Fleet

end Fafo.Legacy
