import Mathlib.Tactic.Linarith
import Fafo.Clock
import Fafo.Objlog

/-! How old a pending lock is, and how old the node that meets it takes it to be. -/
namespace Fafo

open Interleave NodeClock

variable {ι τ β δ N : Type}

/-- A boat stamps its entry and writes it; a boat of another node reads its own clock and meets the
entry. Instants and durations are real, in nanoseconds. -/
structure Meeting where
  writerBirth : Nat
  writerUptime : Nat
  writeDelay : Nat
  resolverBirth : Nat
  resolverUptime : Nat
  meetDelay : Nat

namespace Meeting

def written (m : Meeting) : Nat := m.writerBirth + m.writerUptime + m.writeDelay

def met (m : Meeting) : Nat := m.resolverBirth + m.resolverUptime + m.meetDelay

/-- The stamp of the entry, by the writer's clock. -/
def born (m : Meeting) : Nat := (new m.writerBirth 1).nowMs (m.writerBirth + m.writerUptime)

/-- What the resolver takes for the present, by its own. -/
def nowMs (m : Meeting) : Nat := (new m.resolverBirth 1).nowMs (m.resolverBirth + m.resolverUptime)

/-- The lock's age when it is met. -/
def age (m : Meeting) : ℤ := m.met - m.written

/-- The lock is past its time to live. -/
def Expired (m : Meeting) (ttlMs : Nat) : Prop := (ttlMs * nsPerMs : ℤ) < m.age

/-- By how much the resolver takes the lock to be younger than it is: the later boot of the resolver
counts in full, and so does what it lets pass after its look at the clock. -/
def slip (m : Meeting) : ℤ :=
  (m.resolverBirth - m.writerBirth) + (m.meetDelay - m.writeDelay) +
    (nsPerMs - 1 - m.writerUptime % nsPerMs : Nat)

/-- The lock's age falls between its time to live and where the slip moves that. -/
def Astray (m : Meeting) (ttlMs : Nat) : Prop :=
  ((ttlMs * nsPerMs : ℤ) < m.age ∧ m.age ≤ ttlMs * nsPerMs + m.slip) ∨
    (ttlMs * nsPerMs + m.slip < m.age ∧ m.age ≤ (ttlMs * nsPerMs : ℤ))

theorem born_eq (m : Meeting) : m.born = m.writerUptime / nsPerMs := by
  rw [born, NodeClock.nowMs, now_new]

theorem nowMs_eq (m : Meeting) : m.nowMs = m.resolverUptime / nsPerMs := by
  rw [nowMs, NodeClock.nowMs, now_new]

/-- The code's comparison is one of the real age, off by the slip. -/
theorem ttl_lt_iff (m : Meeting) (ttlMs : Nat) :
    ttlMs < m.nowMs - m.born ↔ (ttlMs * nsPerMs + m.slip : ℤ) < m.age := by
  rw [born_eq, nowMs_eq, age, met, written, slip]
  unfold nsPerMs
  have hw := Nat.div_add_mod m.writerUptime 1000000
  have hr := Nat.div_add_mod m.resolverUptime 1000000
  have hw' := Nat.mod_lt m.writerUptime (show 1000000 > 0 by decide)
  have hr' := Nat.mod_lt m.resolverUptime (show 1000000 > 0 by decide)
  push_cast
  omega

theorem agrees_iff (m : Meeting) (ttlMs : Nat) :
    ((ttlMs * nsPerMs + m.slip : ℤ) < m.age ↔ m.Expired ttlMs) ↔ ¬ m.Astray ttlMs := by
  unfold Expired Astray
  by_cases h : (ttlMs * nsPerMs : ℤ) < m.age <;>
    by_cases h' : (ttlMs * nsPerMs + m.slip : ℤ) < m.age <;>
    simp [h, h', not_lt.mp, not_le]

end Meeting

/-- The prewrite finds the slot taken, reads whose it is, and finds no verdict on that. -/
def meets (id : ι) (seq : Nat) (entry held : LogEntry τ β δ) :
    List (Event (nodeSig (Key ι τ) (Blob τ β δ) N)) :=
  [⟨.store (.create (.log id seq) (.entry entry)), .ok false⟩,
    ⟨.store (.get (.log id seq)), .ok (some (.entry held))⟩,
    ⟨.store (.get (.outcome held.txn)), .ok none⟩]

/-- The lock is treated as an orphan's: the next operation is `abort_txn`'s. -/
def Reclaims (txn : τ) {α : Type} (p : LogTask ι τ β δ N α) : Prop :=
  ∃ k, p = .call (NodeOp.store (.create (.outcome txn) (.verdict false))) k

/-- Not an attempt at a log slot. -/
def NoSlot : NodeOp (Key ι τ) (Blob τ β δ) N → Prop
  | .store (.create (.log ..) _) => False
  | _ => True

/-- A pending lock is reclaimed if it looks aged, and refused otherwise. -/
def JudgesBy (nowMs ttlMs : Nat) (p : LogTry ι τ β δ N (Option Nat)) : Prop :=
  ∀ id seq entry held q, Trace p (meets id seq entry held) q →
    (ttlMs < nowMs - held.born → Reclaims held.txn q) ∧
      (nowMs - held.born ≤ ttlMs → q = .ret (.ok none))

theorem judgesBy_call {nowMs ttlMs : Nat} {o : NodeOp (Key ι τ) (Blob τ β δ) N}
    (ho : NoSlot o) (k : o.Answer → LogTry ι τ β δ N (Option Nat)) :
    JudgesBy nowMs ttlMs (.call o k) := by
  intro id seq entry held q h
  obtain ⟨_, heq, _⟩ := h.eq_call
  cases heq
  exact ho.elim

theorem judgesBy_ret {nowMs ttlMs : Nat} (r : Except Error (Option Nat)) :
    JudgesBy nowMs ttlMs (.ret r : LogTry ι τ β δ N (Option Nat)) := by
  intro id seq entry held q h
  obtain ⟨_, heq, _⟩ := h.eq_call
  cases heq

theorem judges_attempt {nowMs ttlMs : Nat} {α : Type} {p : LogTry ι τ β δ N α}
    {f : α → LogTry ι τ β δ N (Option Nat)} (hp : p.Only NoSlot)
    (hf : ∀ a, (f a).Always (JudgesBy nowMs ttlMs)) :
    (p.attempt f).Always (JudgesBy nowMs ttlMs) :=
  Prog.Always.attempt (fun _ k ho => judgesBy_call ho k) judgesBy_ret hp hf

section NoSlot

variable [DecidableEq ι]

section

omit [DecidableEq ι]

theorem noSlot_of_isRead (o : NodeOp (Key ι τ) (Blob τ β δ) N) (ho : o.IsRead) : NoSlot o := by
  obtain (_ | _ | _ | _ | _) | _ | _ | _ := o <;> trivial

theorem noSlot_deleteIfTxn [DecidableEq τ] (key : Key ι τ) (txn : τ) :
    (deleteIfTxn key txn : LogTry ι τ β δ N Unit).Only NoSlot := by
  refine Prog.Only.attempt (p := Store.get _) ⟨trivial, fun _ => trivial⟩ fun b => ?_
  split
  · split_ifs
    · exact ⟨trivial, fun _ => trivial⟩
    · trivial
  · trivial

theorem noSlot_abortTxn (txn : τ) : (abortTxn txn : LogTry ι τ β δ N Bool).Only NoSlot := by
  refine Prog.Only.attempt (p := Store.create _ _) ⟨trivial, fun _ => trivial⟩ fun created => ?_
  split_ifs
  · trivial
  · exact ((onlyReads_outcome txn).mono noSlot_of_isRead).attempt fun _ => trivial

end

end NoSlot

section Prewrite

variable [DecidableEq ι] [DecidableEq τ]

/-- What a pass of the slot loop makes of the entry that holds the slot. -/
def onHeld (id : ι) (txn : τ) (entry : LogEntry τ β δ) (seq nowMs ttlMs tries : Nat)
    (held : LogEntry τ β δ) : LogTry ι τ β δ N (Option Nat) :=
  if held.txn = txn then .ret (.ok (some seq)) else
  (outcome held.txn).attempt fun verdict =>
  match verdict with
  | some true => .ret (.ok none)
  | some false =>
    (deleteIfTxn (.log id seq) held.txn).attempt fun _ =>
      takeSlot id txn entry seq nowMs ttlMs tries
  | none =>
    if nowMs - held.born ≤ ttlMs then .ret (.ok none) else
    (abortTxn held.txn).attempt fun won =>
      if won then
        (deleteIfTxn (.log id seq) held.txn).attempt fun _ =>
          takeSlot id txn entry seq nowMs ttlMs tries
      else .ret (.ok none)

/-- What it makes of what the slot was read to hold. -/
def onExisting (id : ι) (txn : τ) (entry : LogEntry τ β δ) (seq nowMs ttlMs tries : Nat)
    (existing : Option (Blob τ β δ)) : LogTry ι τ β δ N (Option Nat) :=
  match existing with
  | none => takeSlot id txn entry seq nowMs ttlMs tries
  | some b =>
    match decodeEntry b with
    | none => .ret (.ok none)
    | some held => onHeld id txn entry seq nowMs ttlMs tries held

omit [DecidableEq ι] in
theorem takeSlot_succ (id : ι) (txn : τ) (entry : LogEntry τ β δ) (seq nowMs ttlMs tries : Nat) :
    (takeSlot id txn entry seq nowMs ttlMs (tries + 1) : LogTry ι τ β δ N _) =
      (Store.create (.log id seq) (.entry entry)).attempt fun created =>
        if created then .ret (.ok (some seq)) else
        (Store.get (.log id seq)).attempt (onExisting id txn entry seq nowMs ttlMs tries) := rfl

variable {id : ι} {txn : τ} {entry : LogEntry τ β δ} {seq nowMs ttlMs tries : Nat}

omit [DecidableEq ι] in
/-- The verdict on a pending holder depends on the clocks only. -/
theorem onHeld_judges {held : LogEntry τ β δ} {q : LogTry ι τ β δ N (Option Nat)}
    (h : Trace (onHeld id txn entry seq nowMs ttlMs tries held)
      [⟨.store (.get (.outcome held.txn)), .ok none⟩] q) :
    (ttlMs < nowMs - held.born → Reclaims held.txn q) ∧
      (nowMs - held.born ≤ ttlMs → q = .ret (.ok none)) := by
  unfold onHeld at h
  split_ifs at h with htxn hle
  · obtain ⟨_, heq, _⟩ := h.eq_call
    cases heq
  · obtain rfl := (Trace.of_call h).eq_of_nil
    exact ⟨fun hlt => absurd hle (not_le.mpr hlt), fun _ => rfl⟩
  · obtain rfl := (Trace.of_call h).eq_of_nil
    exact ⟨fun _ => ⟨_, rfl⟩, fun hle' => absurd hle' hle⟩

omit [DecidableEq ι] in
/-- Every pass of the slot loop judges by the clocks. -/
theorem takeSlot_judges :
    (takeSlot id txn entry seq nowMs ttlMs tries : LogTry ι τ β δ N _).Always
      (JudgesBy nowMs ttlMs) := by
  induction tries with
  | zero => exact judgesBy_ret _
  | succ tries ih =>
    have hdelete : ∀ other, Prog.Always (JudgesBy nowMs ttlMs)
        ((deleteIfTxn (.log id seq) other : LogTry ι τ β δ N Unit).attempt fun _ =>
          takeSlot id txn entry seq nowMs ttlMs tries) := fun other =>
      judges_attempt (noSlot_deleteIfTxn ..) fun _ => ih
    have hheld : ∀ held, Prog.Always (JudgesBy nowMs ttlMs)
        (onHeld id txn entry seq nowMs ttlMs tries held : LogTry ι τ β δ N _) := by
      intro held
      unfold onHeld
      split_ifs with htxn hle
      · exact judgesBy_ret _
      · refine judges_attempt ((onlyReads_outcome _).mono noSlot_of_isRead) fun verdict => ?_
        split
        · exact judgesBy_ret _
        · exact hdelete _
        · exact judgesBy_ret _
      · refine judges_attempt ((onlyReads_outcome _).mono noSlot_of_isRead) fun verdict => ?_
        split
        · exact judgesBy_ret _
        · exact hdelete _
        · refine judges_attempt (noSlot_abortTxn _) fun won => ?_
          split_ifs
          · exact hdelete _
          · exact judgesBy_ret _
    have hexisting : Prog.Always (JudgesBy nowMs ttlMs)
        ((Store.get (.log id seq)).attempt (onExisting id txn entry seq nowMs ttlMs tries) :
          LogTry ι τ β δ N _) := by
      refine judges_attempt (p := Store.get _) ⟨trivial, fun _ => trivial⟩ fun existing => ?_
      unfold onExisting
      split
      · exact ih
      · split
        · exact judgesBy_ret _
        · exact hheld _
    rw [takeSlot_succ]
    refine ⟨?_, fun r => ?_⟩
    · -- the pass whose create finds the slot taken
      intro id' seq' entry' held q h
      obtain ⟨_, heq, h⟩ := h.eq_call
      cases heq
      exact onHeld_judges (Trace.of_call h)
    · cases r with
      | error e => exact judgesBy_ret _
      | ok created =>
        cases created with
        | true => exact judgesBy_ret _
        | false => exact hexisting

theorem prewrite_judges (M : Images β δ) (expected : Nat) :
    (prewrite M id txn entry expected nowMs ttlMs : LogTry ι τ β δ N _).Always
      (JudgesBy nowMs ttlMs) := by
  refine judges_attempt ((onlyReads_committedSeq M id).mono noSlot_of_isRead) fun s => ?_
  split_ifs
  · exact judgesBy_ret _
  · exact takeSlot_judges

/-- The lock is reclaimed exactly when its real age says so, unless that age is astray. -/
theorem lock_age_judged_iff (m : Meeting) (M : Images β δ) (id : ι) (txn : τ)
    (entry held : LogEntry τ β δ) (expected ttlMs seq : Nat) (hborn : held.born = m.born)
    (events : List (Event (nodeSig (Key ι τ) (Blob τ β δ) N)))
    (p : LogTry ι τ β δ N (Option Nat))
    (h : Trace (prewrite M id txn entry expected m.nowMs ttlMs)
      (events ++ meets id seq entry held) p) :
    (Reclaims held.txn p ↔ m.Expired ttlMs) ↔ ¬ m.Astray ttlMs := by
  obtain ⟨mid, hmid, hmeets⟩ := h.split
  obtain ⟨haged, hfresh⟩ := (prewrite_judges M expected).trace hmid id seq entry held p hmeets
  have hreclaims : Reclaims held.txn p ↔ ttlMs < m.nowMs - m.born := by
    rw [← hborn]
    refine ⟨fun hr => ?_, haged⟩
    by_contra hle
    obtain ⟨k, hk⟩ := hr
    rw [hfresh (not_lt.mp hle)] at hk
    cases hk
  rw [hreclaims, m.ttl_lt_iff, m.agrees_iff]

end Prewrite

/-- A node up for 91 s meets the lock that a peer, up since 90 s, has placed one second ago. -/
def youngPeer : Meeting := ⟨90000000000, 0, 0, 0, 91000000000, 0⟩

/-- Two nodes booted together, and a lock that is 20 s old. -/
def oldLock : Meeting := ⟨0, 1000000000, 0, 0, 21000000000, 0⟩

def unitImages : Images Unit Unit := ⟨(), fun _ _ => some (), fun _ => 0⟩

/-- What boat 1 reads on its way to the slot that boat 0 holds. -/
def pathTo (held : LogEntry Nat Unit Unit) :
    List (Event (nodeSig (Key Nat Nat) (Blob Nat Unit Unit) Unit)) :=
  [⟨.store (.list (basePrefix 0)), .ok []⟩, ⟨.store (.list (logPrefix 0)), .ok [.log 0 1]⟩,
    ⟨.store (.get (.log 0 1)), .ok (some (.entry held))⟩,
    ⟨.store (.get (.outcome held.txn)), .ok none⟩, ⟨.store (.list (basePrefix 0)), .ok []⟩]

theorem trace_pathTo (held entry : LogEntry Nat Unit Unit) (hheld : held.txn = 0)
    (nowMs ttlMs : Nat) :
    ∃ p : LogTry Nat Nat Unit Unit Unit (Option Nat),
      Trace (prewrite unitImages 0 1 entry 0 nowMs ttlMs)
        (pathTo held ++ meets 0 1 entry held) p := by
  obtain ⟨txn, born, payload⟩ := held
  cases hheld
  exact ⟨_, .cons (.cons (.cons (.cons (.cons (.cons (.cons (.cons (.nil _))))))))⟩

/-- The old lock is reclaimed, as it should be. -/
theorem lock_age_judged_iff_oldLock : ∃ p : LogTry Nat Nat Unit Unit Unit (Option Nat),
    Trace (prewrite unitImages 0 1 ⟨1, oldLock.nowMs, .delta ()⟩ 0 oldLock.nowMs 12500)
        (pathTo ⟨0, oldLock.born, .delta ()⟩ ++
          meets 0 1 ⟨1, oldLock.nowMs, .delta ()⟩ ⟨0, oldLock.born, .delta ()⟩) p ∧
      Reclaims 0 p := by
  obtain ⟨p, hp⟩ := trace_pathTo ⟨0, oldLock.born, .delta ()⟩ ⟨1, oldLock.nowMs, .delta ()⟩ rfl
    oldLock.nowMs 12500
  have hiff := lock_age_judged_iff oldLock unitImages 0 1 _ _ 0 12500 1 rfl _ p hp
  refine ⟨p, hp, (hiff.mpr ?_).mpr ?_⟩
  · unfold Meeting.Astray
    decide
  · unfold Meeting.Expired
    decide

/-- The young peer's lock is taken for an orphan's. -/
theorem live_lock_reclaimed : ∃ p : LogTry Nat Nat Unit Unit Unit (Option Nat),
    Trace (prewrite unitImages 0 1 ⟨1, youngPeer.nowMs, .delta ()⟩ 0 youngPeer.nowMs 12500)
        (pathTo ⟨0, youngPeer.born, .delta ()⟩ ++
          meets 0 1 ⟨1, youngPeer.nowMs, .delta ()⟩ ⟨0, youngPeer.born, .delta ()⟩) p ∧
      Reclaims 0 p ∧ ¬ youngPeer.Expired 12500 := by
  obtain ⟨p, hp⟩ := trace_pathTo ⟨0, youngPeer.born, .delta ()⟩ ⟨1, youngPeer.nowMs, .delta ()⟩ rfl
    youngPeer.nowMs 12500
  refine ⟨p, hp, ?_, ?_⟩
  · obtain ⟨mid, hmid, hmeets⟩ := hp.split
    refine ((prewrite_judges unitImages 0).trace hmid _ _ _ _ p hmeets).1 ?_
    rw [Meeting.born_eq, Meeting.nowMs_eq]
    decide
  · unfold Meeting.Expired
    decide

end Fafo
