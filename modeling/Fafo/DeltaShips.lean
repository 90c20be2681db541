import Fafo.Deltas
import Fafo.ShipLanding
import Mathlib.Data.List.Sort

/-! Ships that carry snapshots or page deltas, and the image that the store then holds. -/
namespace Fafo.Legacy

open Interleave Deltas

variable {ι τ : Type} [DecidableEq ι] [DecidableEq τ]

def fileFormat : Files File := ⟨List.length, changeCounter⟩

section Payload

variable (hash : List UInt8 → UInt64)

def deltaSize (delta : Delta) : Nat := (delta.pages.map (·.2.length)).sum

/-- The chain has room for one more delta, and this one is worth it. -/
def RidesDelta (m : Manifest) (bytes : File) : Prop :=
  m.chainLen + 1 ≤ compactChain ∧
    deltaSize (diff hash m bytes).1 ≤ bytes.length / compactFractionDenom

instance (m : Manifest) (bytes : File) : Decidable (RidesDelta hash m bytes) :=
  inferInstanceAs (Decidable (_ ∧ _))

/-- How one dirty object rides the boat, and its manifest from then on. -/
def shipPayload (manifest : Option Manifest) (bytes : File) : ShipPayload File × Option Manifest :=
  if bytes.length < deltaMinBytes then (.snapshot bytes manifest.isSome, manifest)
  else
    match manifest with
    | none => (.snapshot bytes false, some (.of hash bytes 0))
    | some m =>
      let (d, m') := diff hash m bytes
      if m.chainLen + 1 > compactChain ∨ deltaSize d > bytes.length / compactFractionDenom then
        (.snapshot bytes true, some { m' with chainLen := 0 })
      else (.delta d.counter.toNat (encode d), some { m' with chainLen := m.chainLen + 1 })

end Payload

/-- A worker's manifests, the store, and what was last shipped of each object. -/
structure Depot (ι τ : Type) where
  manifests : ι → Option Manifest
  world : LegacyWorld ι τ File
  shipped : ι → Option File

/-- The dirty objects a boat takes and their files, and what its ship task meets on the way. -/
structure Trip (ι τ : Type) where
  txn : τ
  objects : List ι
  objects_nodup : objects.Nodup
  file : ι → File
  landing : List (ShipItem ι File) → List (ShipItem ι File)
  landing_perm : ∀ items, (landing items).Perm items
  env : Nat → Env

namespace Depot

variable (hash : List UInt8 → UInt64) (d : Depot ι τ) (trip : Trip ι τ)

omit [DecidableEq ι] [DecidableEq τ] in
def items : List (ShipItem ι File) :=
  trip.objects.map fun id => ⟨id, (shipPayload hash (d.manifests id) (trip.file id)).1⟩

omit [DecidableEq ι] [DecidableEq τ] in
def boat : Boat ι File where
  items := d.items hash trip
  landing := trip.landing (d.items hash trip)
  landing_perm := trip.landing_perm _
  objects_nodup := by simpa [items, Function.comp_def] using trip.objects_nodup

/-- The ship task, from start to end. -/
def voyage : Ended (LegacyWorld ι τ File) (ShipDone ι) :=
  (shipTask fileFormat trip.txn (d.boat hash trip)).solo node trip.env 0 d.world

/-- The depot once the ship task has ended. -/
def ship : Depot ι τ where
  manifests id :=
    if id ∈ trip.objects then (shipPayload hash (d.manifests id) (trip.file id)).2
    else d.manifests id
  world := (d.voyage hash trip).state
  shipped id := if id ∈ trip.objects then some (trip.file id) else d.shipped id

/-- The boat committed, and everything aboard was promoted. -/
def Promotes : Prop :=
  (d.voyage hash trip).answer.ok = true ∧ (d.voyage hash trip).answer.unpromoted = []

end Depot

section Image

def fileOf : Blob ι τ File → Option File
  | .bytes b => some b
  | .record _ => none

/-- The counters of the listed deltas, in the order of their keys. -/
def sortedCounters (object : ι) (keys : List (Key ι τ)) : List Nat :=
  (keys.filterMap (parseDeltaCounter object)).insertionSort (· ≤ ·)

/-- The deltas above the base. -/
def chain (w : LegacyWorld ι τ File) (object : ι) : List Nat :=
  match (w.get (.base object)).bind fileOf with
  | some base =>
    (sortedCounters object (w.blobs.keys.filter (deltaPrefix object))).filter
      (changeCounter base < ·)
  | none => []

def deltaAt (w : LegacyWorld ι τ File) (object : ι) (counter : Nat) : Option Delta :=
  ((w.get (.delta object counter)).bind fileOf).bind fun bytes => (decode bytes).toOption

/-- The base, and the deltas above it applied in order. -/
def restored (w : LegacyWorld ι τ File) (object : ι) : Option File :=
  ((w.get (.base object)).bind fileOf).bind fun base =>
    (chain w object).foldlM (fun image counter => (deltaAt w object counter).map (apply image)) base

/-- The counter in a file's header, read by itself. -/
def headerCounter (file : File) : Option Nat :=
  if file.length < 28 then none else some (Bytes.fromBE ((file.drop 24).take 4))

/-- Apply the listed deltas above the base that the image does not have yet, counting the chain. -/
def applyDeltas (object : ι) (baseCounter imageCounter : Nat) : List Nat → File → Nat →
    LegacyTry ι τ File (File × Nat)
  | [], image, total => .ret (.ok (image, total))
  | counter :: counters, image, total =>
    if counter ≤ baseCounter then applyDeltas object baseCounter imageCounter counters image total
    else if counter ≤ imageCounter then
      applyDeltas object baseCounter imageCounter counters image (total + 1)
    else
      (Store.get (.delta object counter)).attempt fun bytes =>
        match bytes.bind fileOf with
        | none => .ret (.error .racingCompaction)
        | some bytes =>
          match decode bytes with
          | .error _ => .ret (.error .badDelta)
          | .ok delta =>
            applyDeltas object baseCounter imageCounter counters (apply image delta) (total + 1)

/-- An object's durable image and the length of its chain. A cached file within the chain stands in
for the base. -/
def fetchImage (object : ι) (cached : Option File) : LegacyTry ι τ File (File × Nat) :=
  (Store.get (.base object)).attempt fun header =>
    match (header.bind fileOf).bind headerCounter with
    | none => .ret (.ok ([], 0))
    | some baseCounter =>
      (Store.list (deltaPrefix object)).attempt fun keys =>
        let counters := sortedCounters object keys
        let maxDurable := (counters.filter (baseCounter < ·)).foldl max baseCounter
        let download : LegacyTry ι τ File File := (Store.get (.base object)).attempt fun base =>
          .ret (.ok ((base.bind fileOf).getD []))
        (match cached.filter fun cache => 100 ≤ cache.length with
          | some cache =>
            if baseCounter ≤ changeCounter cache ∧ changeCounter cache ≤ maxDurable then
              .ret (.ok cache)
            else download
          | none => download : LegacyTry ι τ File File).attempt fun image =>
          applyDeltas object baseCounter (changeCounter image) counters image 0

end Image

end Fafo.Legacy
