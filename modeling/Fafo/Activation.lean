import Mathlib.Algebra.Group.Nat.Defs
import Fafo.Compaction

/-! The log position an activation records, and the next boat's prewrite on it. -/
namespace Fafo.Activation

open Interleave

variable {ι τ β δ : Type} [LinearOrder ι] [DecidableEq τ]

/-- `fetch_image` under the log engine: the committed seq goes where the length of the delta chain
went. -/
def fetchImage (M : Images β δ) (id : ι) : NotedTask ι τ β δ (Except Error (β × UInt32)) :=
  (foldCommitted M id).attempt fun (image, seq) => .ret (.ok (image, UInt32.ofNat seq))

/-- What a worker owns, which of it is live, and the seq that each live file reflects. -/
structure Worker (ι β : Type) where
  owned : ι → Bool
  objects : ι → Option β
  logSeq : ι → Option UInt64

/-- An object that is the worker's and still cold is materialized, if its file can be written. -/
def onActivated (materialize : β → Except Error Unit) (object : ι)
    (result : Except Error (β × UInt32)) (w : Worker ι β) : Except Error (Worker ι β) :=
  match result with
  | .error e => .error e
  | .ok (image, chainTotal) =>
    if w.owned object && (w.objects object).isNone then
      match materialize image with
      | .error e => .error e
      | .ok () => .ok { w with
          objects := Function.update w.objects object (some image)
          logSeq := Function.update w.logSeq object (some chainTotal.toUInt64) }
    else .ok w

/-- The seq that a boat's snapshot of the object builds on. -/
def Worker.expectedSeq (w : Worker ι β) (object : ι) : UInt64 := (w.logSeq object).getD 0

/-- The worker knows the object at seq `n`, and as long as `n` is the committed seq, the prewrite of
its next boat goes on to take the slot above. -/
structure TruePosition (M : Images β δ) (w : Worker ι β) (object : ι) (n : Nat) : Prop where
  recorded : w.logSeq object = some (UInt64.ofNat n)
  expected : (w.expectedSeq object).toNat = n
  admitted : ∀ (env : Nat → Env) (k next : Nat) (store store' : LogWorld ι τ β δ) (txn : τ)
    (entry : LogEntry τ β δ) (nowMs ttlMs : Nat),
    ends env (committedSeq M object) k store = ⟨.ok n, next, store'⟩ →
      ends env (prewrite M object txn entry (w.expectedSeq object).toNat nowMs ttlMs) k store =
        ends env (takeSlot object txn entry (n + 1) nowMs ttlMs 64) next store'

section Recorded

variable {M : Images β δ} {w : Worker ι β} {object : ι} {n : Nat} {env : Nat → Env} {k : Nat}
  {store : LogWorld ι τ β δ}

/-- A fetch answers what the fold does, with its seq cut to 32 bits. -/
theorem fetchImage_answer {image : β}
    (h : (ends env (foldCommitted M object) k store).answer = .ok (image, n)) :
    (ends env (fetchImage M object) k store).answer = .ok (image, UInt32.ofNat n) := by
  cases hends : ends env (foldCommitted M object) k store with
  | mk answer next store' =>
    rw [hends] at h
    obtain rfl : answer = .ok (image, n) := h
    rw [fetchImage, ends, Prog.solo_attempt_of_eq node env hends]
    rfl

theorem onActivated_installs {materialize : β → Except Error Unit} {image : β} {seq : UInt32}
    (howned : w.owned object = true) (hcold : w.objects object = none)
    (hopens : materialize image = .ok ()) :
    ∃ w', onActivated materialize object (.ok (image, seq)) w = .ok w' ∧
      w'.objects object = some image ∧ w'.logSeq object = some seq.toUInt64 := by
  refine ⟨⟨w.owned, Function.update w.objects object (some image),
    Function.update w.logSeq object (some seq.toUInt64)⟩, ?_, ?_, ?_⟩
  · simp only [onActivated, howned, hcold, hopens]
    rfl
  · exact Function.update_self object (some image) w.objects
  · exact Function.update_self object (some seq.toUInt64) w.logSeq

theorem prewrite_abreast {next : Nat} {store' : LogWorld ι τ β δ}
    (h : ends env (committedSeq M object) k store = ⟨.ok n, next, store'⟩) (txn : τ)
    (entry : LogEntry τ β δ) (nowMs ttlMs : Nat) :
    ends env (prewrite M object txn entry n nowMs ttlMs) k store =
      ends env (takeSlot object txn entry (n + 1) nowMs ttlMs 64) next store' := by
  rw [prewrite, ends, Prog.solo_attempt_of_eq node env h]
  simp

/-- A seq below 2^32 is recorded as it is. -/
theorem truePosition (hn : n < 2 ^ 32)
    (hrecorded : w.logSeq object = some (UInt32.ofNat n).toUInt64) :
    TruePosition (τ := τ) M w object n := by
  have hcut : (UInt32.ofNat n).toUInt64 = UInt64.ofNat n := by
    apply UInt64.toNat_inj.mp
    rw [UInt32.toNat_toUInt64, UInt32.toNat_ofNat', UInt64.toNat_ofNat']
    omega
  have hexpected : (w.expectedSeq object).toNat = n := by
    rw [Worker.expectedSeq, hrecorded, hcut, Option.getD_some, UInt64.toNat_ofNat']
    omega
  constructor
  case recorded => rw [hrecorded, hcut]
  case expected => exact hexpected
  case admitted =>
    intro env k next store store' txn entry nowMs ttlMs hseq
    rw [hexpected]
    exact prewrite_abreast hseq txn entry nowMs ttlMs

/-- And what is recorded is below 2^32. -/
theorem TruePosition.lt (h : TruePosition (τ := τ) M w object n)
    (hrecorded : w.logSeq object = some (UInt32.ofNat n).toUInt64) : n < 2 ^ 32 := by
  have hexpected := h.expected
  rw [Worker.expectedSeq, hrecorded, Option.getD_some, UInt32.toNat_toUInt64,
    UInt32.toNat_ofNat'] at hexpected
  omega

end Recorded

/-- An activation that installs the fold at a committed seq of 64 bits records it just when the seq
has 32. -/
theorem activation_position (M : Images β δ) (env : Nat → Env) (k : Nat)
    (store : LogWorld ι τ β δ) (materialize : β → Except Error Unit) (w : Worker ι β) (object : ι)
    {image : β} {n : Nat}
    (hfold : (ends env (foldCommitted M object) k store).answer = .ok (image, n))
    (howned : w.owned object = true) (hcold : w.objects object = none)
    (hopens : materialize image = .ok ()) :
    ∃ w',
      onActivated materialize object (ends env (fetchImage M object) k store).answer w = .ok w' ∧
      w'.objects object = some image ∧ (TruePosition (τ := τ) M w' object n ↔ n < 2 ^ 32) := by
  rw [fetchImage_answer hfold]
  obtain ⟨w', heq, himage, hrecorded⟩ := onActivated_installs howned hcold hopens
  exact ⟨w', heq, himage, fun h => h.lt hrecorded, fun hlt => truePosition hlt hrecorded⟩

def coldWorker : Worker Nat Nat := ⟨fun _ => true, fun _ => none, fun _ => none⟩

theorem activation_position_shortLog :
    ∃ w', onActivated (fun _ => .ok ()) 0
        (ends calm (fetchImage counterYard.images 0) 0 shortLogBased).answer coldWorker = .ok w' ∧
      w'.objects 0 = some 6 ∧
      (TruePosition (τ := Nat) counterYard.images w' 0 2 ↔ 2 < 2 ^ 32) :=
  activation_position counterYard.images calm 0 shortLogBased (fun _ => .ok ()) coldWorker 0
    rfl rfl rfl rfl

/-- An object whose base was published at seq 2^32. -/
def longLog : LogWorld Nat Nat Nat Nat :=
  { blobs := AList.insert (.base 0 (2 ^ 32)) (.image 7) ∅ }

/-- It is recorded at seq 0, and the prewrite of its next boat is refused. -/
theorem seq_cut_to_zero :
    (ends calm (foldCommitted counterYard.images 0) 0 longLog).answer = .ok (7, 2 ^ 32) ∧
      ∃ w', onActivated (fun _ => .ok ()) 0
          (ends calm (fetchImage counterYard.images 0) 0 longLog).answer coldWorker = .ok w' ∧
        w'.logSeq 0 = some 0 ∧ ¬ TruePosition (τ := Nat) counterYard.images w' 0 (2 ^ 32) ∧
        (ends calm (prewrite counterYard.images 0 1 ⟨1, 0, .snapshot 8⟩ (w'.expectedSeq 0).toNat 0
          30000) 0 longLog).answer = .ok none := by
  refine ⟨rfl, _, rfl, rfl, fun h => ?_, rfl⟩
  exact absurd (h.lt rfl) (by decide)

end Fafo.Activation
