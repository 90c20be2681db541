import Mathlib.Data.List.Sort
import Fafo.Store

/-! The log-structured commit layout: keys, entries, outcomes, the fold and the prewrite. -/
namespace Fafo

open Interleave

/-- Keys of the log engine: `objects/<id>.L.<seq>`, `objects/<id>.B.<seq>`, `txns/<txn>.O`, and
the staged payloads of large boats. -/
inductive Key (ι τ : Type) where
  | log (id : ι) (seq : Nat)
  | base (id : ι) (seq : Nat)
  | outcome (txn : τ)
  | staging (txn : τ) (id : ι)
  deriving DecidableEq

/-- A full snapshot, or an encoded page delta against the previous seq's image. -/
inductive LogPayload (β δ : Type) where
  | snapshot (bytes : β)
  | delta (bytes : δ)

structure LogEntry (τ β δ : Type) where
  txn : τ
  born : Nat
  payload : LogPayload β δ

/-- What a key can hold. -/
inductive Blob (τ β δ : Type) where
  | entry (e : LogEntry τ β δ)
  | verdict (committed : Bool)
  | image (bytes : β)
  | staged (payload : LogPayload β δ)

/-- File images: the empty one, how an encoded delta changes one (nothing if it does not decode),
and the size of a payload. -/
structure Images (β δ : Type) where
  empty : β
  apply : β → δ → Option β
  size : LogPayload β δ → Nat

variable {ι τ β δ N : Type}

def decodeEntry : Blob τ β δ → Option (LogEntry τ β δ)
  | .entry e => some e
  | _ => none

/-- The value read at an outcome key: `[1]` is committed, everything else is not. -/
def isCommitted : Blob τ β δ → Bool
  | .verdict c => c
  | _ => false

def imageBytes (M : Images β δ) : Blob τ β δ → β
  | .image b => b
  | _ => M.empty

def parseLogSeq [DecidableEq ι] (id : ι) : Key ι τ → Option Nat
  | .log i seq => if i = id then some seq else none
  | _ => none

def parseBaseSeq [DecidableEq ι] (id : ι) : Key ι τ → Option Nat
  | .base i seq => if i = id then some seq else none
  | _ => none

/-- The prefix `objects/<id>.L.`. -/
def logPrefix [DecidableEq ι] (id : ι) (k : Key ι τ) : Bool := (parseLogSeq id k).isSome

/-- The prefix `objects/<id>.B.`. -/
def basePrefix [DecidableEq ι] (id : ι) (k : Key ι τ) : Bool := (parseBaseSeq id k).isSome

/-- Fold a base image and an ordered run of entries into the current image. -/
def fold (M : Images β δ) (base : β) : List (LogPayload β δ) → Except Error β
  | [] => .ok base
  | .snapshot b :: es => fold M b es
  | .delta d :: es =>
    match M.apply base d with
    | some b => fold M b es
    | none => .error .badDelta

section Reads

variable [DecidableEq ι]

abbrev LogTask (ι τ β δ N α : Type) := Task (Key ι τ) (Blob τ β δ) N α

abbrev LogTry (ι τ β δ N α : Type) := Try (Key ι τ) (Blob τ β δ) N α

/-- The highest compacted base, or the empty image at 0. -/
def readBase (M : Images β δ) (id : ι) : LogTry ι τ β δ N (β × Nat) :=
  (Store.list (basePrefix id)).attempt fun keys =>
    match (keys.filterMap (parseBaseSeq id)).max? with
    | some seq =>
      (Store.get (.base id seq)).attempt fun img =>
        .ret (.ok ((img.map (imageBytes M)).getD M.empty, seq))
    | none => .ret (.ok (M.empty, 0))

def outcome (txn : τ) : LogTry ι τ β δ N (Option Bool) :=
  (Store.get (.outcome txn)).attempt fun b => .ret (.ok (b.map isCommitted))

/-- A read that fails counts as not committed. -/
def committed (txn : τ) : LogTask ι τ β δ N Bool :=
  (outcome txn).bind fun r =>
    match r with
    | .ok (some true) => .ret true
    | _ => .ret false

/-- Commit: create the outcome as committed; when it exists already, look at what it says. -/
def commitTxn (txn : τ) : LogTry ι τ β δ N Bool :=
  (Store.create (.outcome txn) (.verdict true)).attempt fun created =>
    if created then .ret (.ok true) else (committed txn).bind fun c => .ret (.ok c)

/-- Abort: create the outcome as aborted; true if it is aborted, false if it committed first. -/
def abortTxn (txn : τ) : LogTry ι τ β δ N Bool :=
  (Store.create (.outcome txn) (.verdict false)).attempt fun created =>
    if created then .ret (.ok true) else
      (outcome txn).attempt fun v => .ret (.ok (v == some false))

/-- The loop over the listed seqs that both `fold_committed` and `committed_seq` run: it walks the
contiguous committed entries above the base and collects their payloads. -/
def committedRun (id : ι) (baseSeq : Nat) : List Nat → Nat → List (LogPayload β δ) →
    LogTry ι τ β δ N (Nat × List (LogPayload β δ))
  | [], seq, payloads => .ret (.ok (seq, payloads))
  | thisSeq :: keys, seq, payloads =>
    if thisSeq ≤ baseSeq then committedRun id baseSeq keys seq payloads else
    if thisSeq ≠ seq + 1 then .ret (.ok (seq, payloads)) else
    (Store.get (.log id thisSeq)).attempt fun b =>
      match b.bind decodeEntry with
      | none => .ret (.ok (seq, payloads))
      | some entry =>
        (committed entry.txn).bind fun c =>
          if c then committedRun id baseSeq keys thisSeq (payloads ++ [entry.payload])
          else .ret (.ok (seq, payloads))

/-- `keys.sort()`: the padded keys sort as their seqs do. -/
def sortedSeqs (id : ι) (keys : List (Key ι τ)) : List Nat :=
  (keys.filterMap (parseLogSeq id)).insertionSort (· ≤ ·)

/-- One pass of the read loop: the base, the run above it, and the base once more. The result is
absent when a compaction moved the base past where the run stopped. -/
def committedPass (M : Images β δ) (id : ι) :
    LogTry ι τ β δ N (Option (β × Nat × List (LogPayload β δ))) :=
  (readBase M id).attempt fun (base, baseSeq) =>
    (Store.list (logPrefix id)).attempt fun keys =>
      (committedRun id baseSeq (sortedSeqs id keys) baseSeq []).attempt fun (seq, payloads) =>
        (readBase M id).attempt fun (_, baseSeqNow) =>
          if baseSeqNow > seq then .ret (.ok none) else .ret (.ok (some (base, seq, payloads)))

def committedSeqTries (M : Images β δ) (id : ι) : Nat → LogTry ι τ β δ N Nat
  | 0 => .ret (.error .racingCompaction)
  | tries + 1 =>
    (committedPass M id).attempt fun r =>
      match r with
      | none => committedSeqTries M id tries
      | some (_, seq, _) => .ret (.ok seq)

/-- The highest committed seq: the base seq plus the contiguous committed run above it. -/
def committedSeq (M : Images β δ) (id : ι) : LogTry ι τ β δ N Nat := committedSeqTries M id 16

def foldCommittedTries (M : Images β δ) (id : ι) : Nat → LogTry ι τ β δ N (β × Nat)
  | 0 => .ret (.error .racingCompaction)
  | tries + 1 =>
    (committedPass M id).attempt fun r =>
      match r with
      | none => foldCommittedTries M id tries
      | some (base, seq, payloads) => .ret ((fold M base payloads).map fun img => (img, seq))

/-- The read path: the image of the contiguous committed prefix, and its seq. -/
def foldCommitted (M : Images β δ) (id : ι) : LogTry ι τ β δ N (β × Nat) :=
  foldCommittedTries M id 16

theorem onlyReads_readBase (M : Images β δ) (id : ι) :
    (readBase M id : LogTry ι τ β δ N _).Only NodeOp.IsRead := by
  refine Prog.Only.attempt (p := Store.list _) ⟨trivial, fun _ => trivial⟩ fun keys => ?_
  split
  · exact Prog.Only.attempt (p := Store.get _) ⟨trivial, fun _ => trivial⟩ fun _ => trivial
  · trivial

section

omit [DecidableEq ι]

theorem onlyReads_outcome (txn : τ) : (outcome txn : LogTry ι τ β δ N _).Only NodeOp.IsRead :=
  Prog.Only.attempt (p := Store.get _) ⟨trivial, fun _ => trivial⟩ fun _ => trivial

theorem onlyReads_committed (txn : τ) :
    (committed txn : LogTask ι τ β δ N Bool).Only NodeOp.IsRead := by
  refine (onlyReads_outcome txn).bind fun r => ?_
  split <;> trivial

theorem onlyReads_committedRun (id : ι) (baseSeq : Nat) (keys : List Nat) (seq : Nat)
    (payloads : List (LogPayload β δ)) :
    (committedRun id baseSeq keys seq payloads : LogTry ι τ β δ N _).Only NodeOp.IsRead := by
  induction keys generalizing seq payloads with
  | nil => trivial
  | cons thisSeq keys ih =>
    rw [committedRun]
    split
    · exact ih ..
    split
    · trivial
    refine Prog.Only.attempt (p := Store.get _) ⟨trivial, fun _ => trivial⟩ fun b => ?_
    split
    · trivial
    refine (onlyReads_committed _).bind fun c => ?_
    split
    · exact ih ..
    · trivial

end

theorem onlyReads_committedPass (M : Images β δ) (id : ι) :
    (committedPass M id : LogTry ι τ β δ N _).Only NodeOp.IsRead := by
  refine (onlyReads_readBase M id).attempt fun _ => ?_
  refine Prog.Only.attempt (p := Store.list _) ⟨trivial, fun _ => trivial⟩ fun keys => ?_
  refine (onlyReads_committedRun ..).attempt fun _ => ?_
  refine (onlyReads_readBase M id).attempt fun _ => ?_
  dsimp only
  split <;> trivial

theorem onlyReads_committedSeq (M : Images β δ) (id : ι) :
    (committedSeq M id : LogTry ι τ β δ N _).Only NodeOp.IsRead := by
  unfold committedSeq
  generalize 16 = tries
  induction tries with
  | zero => trivial
  | succ tries ih =>
    rw [committedSeqTries]
    refine (onlyReads_committedPass M id).attempt fun r => ?_
    split
    · exact ih
    · trivial

theorem onlyReads_foldCommitted (M : Images β δ) (id : ι) :
    (foldCommitted M id : LogTry ι τ β δ N _).Only NodeOp.IsRead := by
  unfold foldCommitted
  generalize 16 = tries
  induction tries with
  | zero => trivial
  | succ tries ih =>
    rw [foldCommittedTries]
    refine (onlyReads_committedPass M id).attempt fun r => ?_
    split
    · exact ih
    · trivial

end Reads

section Writes

variable [DecidableEq ι] [DecidableEq τ]

/-- A get, and then a delete if the entry read was `txn`'s. -/
def deleteIfTxn (key : Key ι τ) (txn : τ) : LogTry ι τ β δ N Unit :=
  (Store.get key).attempt fun b =>
    match b.bind decodeEntry with
    | some e => if e.txn = txn then Store.delete key else .ret (.ok ())
    | none => .ret (.ok ())

/-- The slot loop of `prewrite`. -/
def takeSlot (id : ι) (txn : τ) (entry : LogEntry τ β δ) (seq nowMs ttlMs : Nat) :
    Nat → LogTry ι τ β δ N (Option Nat)
  | 0 => .ret (.ok none)
  | tries + 1 =>
    (Store.create (.log id seq) (.entry entry)).attempt fun created =>
    if created then .ret (.ok (some seq)) else
    (Store.get (.log id seq)).attempt fun existing =>
    match existing with
    | none => takeSlot id txn entry seq nowMs ttlMs tries
    | some b =>
      match decodeEntry b with
      | none => .ret (.ok none)
      | some held =>
        if held.txn = txn then .ret (.ok (some seq)) else
        (outcome held.txn).attempt fun verdict =>
        match verdict with
        | some true => .ret (.ok none)
        | some false =>
          (deleteIfTxn (.log id seq) held.txn).attempt fun _ =>
            takeSlot id txn entry seq nowMs ttlMs tries
        | none =>
          -- a fresh lock is a live peer; only an aged one is an orphan
          if nowMs - held.born ≤ ttlMs then .ret (.ok none) else
          (abortTxn held.txn).attempt fun won =>
            if won then
              (deleteIfTxn (.log id seq) held.txn).attempt fun _ =>
                takeSlot id txn entry seq nowMs ttlMs tries
            else .ret (.ok none)

/-- Place `entry` at the next committed seq; `none` when a rival holds the slot, or when the
committed prefix is not the one the entry builds on. -/
def prewrite (M : Images β δ) (id : ι) (txn : τ) (entry : LogEntry τ β δ)
    (expected nowMs ttlMs : Nat) : LogTry ι τ β δ N (Option Nat) :=
  (committedSeq M id).attempt fun seq =>
    if seq ≠ expected then .ret (.ok none)
    else takeSlot id txn entry (expected + 1) nowMs ttlMs 64

/-- Roll back a prewritten entry, unless its transaction reads as committed. -/
def clearEntry (id : ι) (seq : Nat) (txn : τ) : LogTry ι τ β δ N Unit :=
  (committed txn).bind fun c =>
    if c then .ret (.ok ()) else deleteIfTxn (.log id seq) txn

/-- Publish the folded prefix as a base once the tail is long enough; nothing is trimmed. -/
def compact (M : Images β δ) (id : ι) (keep : Nat) : LogTry ι τ β δ N Unit :=
  (foldCommitted M id).attempt fun (image, seq) =>
    (readBase M id).attempt fun (_, baseSeq) =>
      if seq < baseSeq + keep then .ret (.ok ()) else
        (Store.create (.base id seq) (.image image)).attempt fun _ => .ret (.ok ())

end Writes

end Fafo
