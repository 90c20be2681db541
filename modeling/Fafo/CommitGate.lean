import Fafo.Clock
import Fafo.Leases
import Fafo.Library.Runs

/-! The fencing gate before a boat's commit point, and how recent the leases it relies on are. -/
namespace Fafo.CommitGate

open Leases

/-- The part of a node that the gate looks at. Times are node time. -/
structure Node where
  clock : NodeClock
  fenceTtl : Nat
  epochs : List (Nat × Nat)
  verified : Nat
  earliestWrite : Nat := 0
  fenced : Bool := false

/-- Who called `verify_leases`: the guard sweep, or a boat at its gate. -/
inductive Caller where
  | guard
  | boat (id : Nat)
  deriving DecidableEq, Repr

/-- A `verify_leases` under way, with the epochs it goes by. -/
structure Call where
  caller : Caller
  epochs : List (Nat × Nat)

/-- For the record, with the node time: a verification that read the lease keys and found no held
block superseded, and what the gate decided. -/
inductive Event where
  | verified (now : Nat)
  | passed (boat now : Nat)
  | refused (boat now : Nat)
  deriving DecidableEq, Repr

/-- A node from the end of `start` on. `stamped`: its recency stamp is of a verification since. -/
structure State where
  node : Node
  keys : List LeaseKey := []
  real : Nat := 0
  waiting : List (Nat × Nat) := []
  calls : List Call := []
  stamped : Bool := false
  history : List Event := []

/-- The listed keys, or the error of the list. -/
abbrev Listing := Except Error (List LeaseKey)

namespace State

def now (s : State) : Nat := s.node.clock.now s.real

/-- `verify_leases` once its list has returned. A list that fails keeps the old stamp. -/
def verifyLeases (s : State) (epochs : List (Nat × Nat)) (listing : Listing) : Bool × State :=
  match listing with
  | .error _ => (true, s)
  | .ok keys =>
    if Current keys epochs then
      (true, { s with
        node := { s.node with verified := s.now }
        stamped := true
        history := .verified s.now :: s.history })
    else (false, { s with node := { s.node with fenced := true } })

/-- The gate's decision, once the verification has answered. -/
def settle (s : State) (boat : Nat) (verified : Bool) : State :=
  { s with history :=
      (if verified && !s.node.fenced then .passed boat s.now else .refused boat s.now) ::
        s.history }

/-- A `verify_leases` gets the answer to its list. -/
def answer (s : State) (i : Nat) (fault : Fault) : State :=
  match s.calls[i]? with
  | none => s
  | some call =>
    let s : State := { s with calls := s.calls.eraseIdx i }
    let (verified, s) := s.verifyLeases call.epochs
      (if fault = .none then .ok s.keys else .error .unavailable)
    match call.caller with
    | .guard => s
    | .boat id => s.settle id verified

end State

/-- One step. Real time passes, the node is frozen and thawed, lease keys are written, and the
node's map of epochs changes, at any point. -/
inductive Move where
  | pass (duration : Nat)
  | freeze
  | thaw
  | create (key : LeaseKey)
  | hold (epochs : List (Nat × Nat))
  | takeover (wait : Nat)
  | arrive (boat : Nat)
  | depart (i : Nat)
  | guard
  | answer (i : Nat) (fault : Fault)
  | crash
  deriving DecidableEq, Repr

def State.step (s : State) : Move → State
  | .pass duration => { s with real := s.real + duration }
  | .freeze => { s with node := { s.node with clock := s.node.clock.freeze s.real } }
  | .thaw => { s with node := { s.node with clock := s.node.clock.thaw s.real } }
  | .create key => { s with keys := key :: s.keys }
  | .hold epochs => { s with node := { s.node with epochs } }
  | .takeover wait =>
    { s with node := { s.node with earliestWrite := max s.node.earliestWrite (s.now + wait) } }
  | .arrive boat => { s with waiting := (boat, s.node.earliestWrite) :: s.waiting }
  | .depart i =>
    match s.waiting[i]? with
    | none => s
    | some (boat, deadline) =>
      if s.now < deadline then s else
        { s with
          waiting := s.waiting.eraseIdx i
          calls := ⟨.boat boat, s.node.epochs⟩ :: s.calls }
  | .guard => { s with calls := ⟨.guard, s.node.epochs⟩ :: s.calls }
  | .answer i fault => s.answer i fault
  | .crash => { s with node := { s.node with fenced := true } }

/-- Every passed gate has a verification before it, at most `ttl` of node time back. -/
def Recent (ttl : Nat) : List Event → Prop
  | [] => True
  | .passed _ now :: earlier =>
    (∃ v, .verified v ∈ earlier ∧ v ≤ now ∧ now ≤ v + ttl) ∧ Recent ttl earlier
  | .verified _ :: earlier | .refused .. :: earlier => Recent ttl earlier

/-- The recency stamp is of a verification, and not stale. -/
def Fresh (s : State) : Prop := s.stamped ∧ s.now - s.node.verified ≤ s.node.fenceTtl

/-- A list that fails a boat at its gate finds the node fenced, or its recency stamp fresh. -/
def Vouched (s : State) : Move → Prop
  | .answer i fault => fault ≠ .none → ∀ id epochs, s.calls[i]? = some ⟨.boat id, epochs⟩ →
      s.node.fenced ∨ Fresh s
  | _ => True

/-- A clock that is frozen was frozen in the past. -/
def ClockSound (s : State) : Prop :=
  ∀ since skipped, s.node.clock.pause = .frozen since skipped →
    since ≤ s.real - s.node.clock.birth

/-- What the stamp says of the verifications on record. -/
structure Stamped (s : State) : Prop where
  clock : ClockSound s
  verified_le : s.stamped → s.node.verified ≤ s.now
  mem : s.stamped → .verified s.node.verified ∈ s.history
  last : ∀ v, .verified v ∈ s.history → s.stamped ∧ v ≤ s.node.verified
  recent : Recent s.node.fenceTtl s.history

variable {s s' : State}

/-- Steps that leave the stamp and the record alone, and do not turn the clock back. -/
theorem Stamped.later (h : Stamped s) (hclock : ClockSound s') (hnow : s.now ≤ s'.now)
    (hverified : s'.node.verified = s.node.verified) (hstamped : s'.stamped = s.stamped)
    (httl : s'.node.fenceTtl = s.node.fenceTtl) (hhistory : s'.history = s.history) :
    Stamped s' where
  clock := hclock
  verified_le hs := by
    rw [hverified]
    exact (h.verified_le (hstamped ▸ hs)).trans hnow
  mem hs := by
    rw [hverified, hhistory]
    exact h.mem (hstamped ▸ hs)
  last v hv := by
    rw [hstamped, hverified]
    exact h.last v (hhistory ▸ hv)
  recent := by
    rw [httl, hhistory]
    exact h.recent

theorem Stamped.same (h : Stamped s) (hclock : s'.node.clock = s.node.clock)
    (hreal : s'.real = s.real) (hverified : s'.node.verified = s.node.verified)
    (hstamped : s'.stamped = s.stamped) (httl : s'.node.fenceTtl = s.node.fenceTtl)
    (hhistory : s'.history = s.history) : Stamped s' := by
  refine h.later ?_ ?_ hverified hstamped httl hhistory
  · intro since skipped hpause
    rw [hclock] at hpause ⊢
    rw [hreal]
    exact h.clock since skipped hpause
  · rw [State.now, State.now, hclock, hreal]

theorem now_freeze : ({ s with node := { s.node with clock := s.node.clock.freeze s.real } } :
    State).now = s.now := by
  change NodeClock.now _ _ = NodeClock.now _ _
  unfold NodeClock.now
  rw [NodeClock.effective_freeze]
  congr 2
  unfold NodeClock.freeze
  cases s.node.clock.pause <;> rfl

theorem now_thaw (h : ClockSound s) :
    ({ s with node := { s.node with clock := s.node.clock.thaw s.real } } : State).now = s.now := by
  change NodeClock.now _ _ = NodeClock.now _ _
  unfold NodeClock.now
  rw [NodeClock.effective_thaw _ _ h]
  congr 2
  unfold NodeClock.thaw
  cases s.node.clock.pause <;> rfl

/-- A clean verification renews the stamp. -/
theorem Stamped.verifyLeases (h : Stamped s) (epochs : List (Nat × Nat)) (listing : Listing) :
    Stamped (s.verifyLeases epochs listing).2 := by
  unfold State.verifyLeases
  cases listing with
  | error e => exact h
  | ok keys =>
    dsimp only
    split_ifs
    · refine ⟨h.clock, fun _ => le_rfl, fun _ => List.mem_cons_self, fun v hv => ?_, h.recent⟩
      refine ⟨rfl, ?_⟩
      rcases List.mem_cons.mp hv with heq | hv
      · cases heq
        exact le_rfl
      · obtain ⟨hs, hle⟩ := h.last v hv
        exact hle.trans (h.verified_le hs)
    · exact h.same rfl rfl rfl rfl rfl rfl

theorem fresh_verifyLeases {epochs : List (Nat × Nat)} {keys : List LeaseKey}
    (hok : (s.verifyLeases epochs (.ok keys)).1 = true) :
    Fresh (s.verifyLeases epochs (.ok keys)).2 := by
  unfold State.verifyLeases at hok ⊢
  dsimp only at hok ⊢
  split_ifs at hok ⊢
  exact ⟨rfl, (Nat.sub_self _).le.trans (Nat.zero_le _)⟩

/-- What passes the gate has a stamp to show. -/
theorem Stamped.settle (h : Stamped s) (boat : Nat) {verified : Bool}
    (hpass : verified = true → s.node.fenced = false → Fresh s) :
    Stamped (s.settle boat verified) := by
  unfold State.settle
  split_ifs with hgate
  · simp only [Bool.and_eq_true, Bool.not_eq_true'] at hgate
    obtain ⟨hstamped, hfresh⟩ := hpass hgate.1 hgate.2
    refine ⟨h.clock, h.verified_le, fun hs => .tail _ (h.mem hs),
      fun v hv => h.last v ((List.mem_cons.mp hv).resolve_left nofun), ?_, h.recent⟩
    exact ⟨_, h.mem hstamped, h.verified_le hstamped, tsub_le_iff_left.mp hfresh⟩
  · exact ⟨h.clock, h.verified_le, fun hs => .tail _ (h.mem hs),
      fun v hv => h.last v ((List.mem_cons.mp hv).resolve_left nofun), h.recent⟩

/-- Without a fresh stamp there is no recent verification either. -/
theorem Stamped.not_recent (h : Stamped s) (hfresh : ¬ Fresh s) :
    ¬ ∃ v, .verified v ∈ s.history ∧ v ≤ s.now ∧ s.now ≤ v + s.node.fenceTtl := by
  rintro ⟨v, hv, _, hle⟩
  obtain ⟨hs, hv'⟩ := h.last v hv
  exact hfresh ⟨hs, by omega⟩

theorem stamped_answer (h : Stamped s) (i : Nat) (fault : Fault)
    (hvouched : Vouched s (.answer i fault)) : Stamped (s.answer i fault) := by
  unfold State.answer
  cases hcall : s.calls[i]? with
  | none => exact h
  | some call =>
    obtain ⟨caller, epochs⟩ := call
    have hbase : Stamped { s with calls := s.calls.eraseIdx i } := h.same rfl rfl rfl rfl rfl rfl
    have hverify := hbase.verifyLeases epochs
      (if fault = .none then .ok s.keys else .error .unavailable)
    cases caller with
    | guard => exact hverify
    | boat id =>
      refine hverify.settle id fun hok hfenced => ?_
      by_cases hfault : fault = .none
      · rw [if_pos hfault] at hok hfenced ⊢
        exact fresh_verifyLeases hok
      · rw [if_neg hfault] at hfenced ⊢
        rcases hvouched hfault id epochs hcall with hf | hfresh
        · exact absurd (hf.symm.trans hfenced) nofun
        · exact hfresh

theorem stamped_step (h : Stamped s) (m : Move) (hvouched : Vouched s m) : Stamped (s.step m) := by
  cases m with
  | pass duration =>
    refine h.later (fun since skipped hpause => (h.clock since skipped hpause).trans ?_)
      (NodeClock.now_mono _ (Nat.le_add_right ..)) rfl rfl rfl rfl
    exact Nat.sub_le_sub_right (Nat.le_add_right ..) _
  | freeze =>
    refine h.later ?_ now_freeze.ge rfl rfl rfl rfl
    intro since skipped hpause
    change (s.node.clock.freeze s.real).pause = _ at hpause
    change since ≤ s.real - (s.node.clock.freeze s.real).birth
    unfold NodeClock.freeze at hpause ⊢
    cases hclock : s.node.clock.pause with
    | running =>
      simp only [hclock] at hpause ⊢
      cases hpause
      exact le_rfl
    | frozen =>
      simp only [hclock] at hpause ⊢
      exact h.clock since skipped (hclock.trans hpause)
  | thaw =>
    refine h.later ?_ (now_thaw h.clock).ge rfl rfl rfl rfl
    intro since skipped hpause
    change (s.node.clock.thaw s.real).pause = _ at hpause
    unfold NodeClock.thaw at hpause
    cases hclock : s.node.clock.pause <;> simp [hclock] at hpause
  | create key => exact h.same rfl rfl rfl rfl rfl rfl
  | hold epochs => exact h.same rfl rfl rfl rfl rfl rfl
  | takeover wait => exact h.same rfl rfl rfl rfl rfl rfl
  | arrive boat => exact h.same rfl rfl rfl rfl rfl rfl
  | depart i =>
    unfold State.step
    dsimp only
    split
    · exact h
    · split_ifs
      · exact h
      · exact h.same rfl rfl rfl rfl rfl rfl
  | guard => exact h.same rfl rfl rfl rfl rfl rfl
  | answer i fault => exact stamped_answer h i fault hvouched
  | crash => exact h.same rfl rfl rfl rfl rfl rfl

/-- A boat that a failing list lets pass on a stale stamp has no recent verification. -/
theorem not_recent_step (h : Stamped s) (m : Move) (hvouched : ¬ Vouched s m) :
    ¬ Recent s.node.fenceTtl (s.step m).history := by
  cases m with
  | answer i fault =>
    simp only [Vouched, not_forall, not_or] at hvouched
    obtain ⟨hfault, id, epochs, hcall, hfenced, hfresh⟩ := hvouched
    have hhistory : (s.step (.answer i fault)).history = .passed id s.now :: s.history := by
      simp only [State.step, State.answer, hcall, if_neg hfault, State.verifyLeases, State.settle,
        Bool.true_and]
      rw [if_pos (by simpa using hfenced)]
      rfl
    rw [hhistory]
    exact fun hrecent => h.not_recent hfresh hrecent.1
  | _ => exact absurd trivial hvouched

theorem fenceTtl_verifyLeases (epochs : List (Nat × Nat)) (listing : Listing) :
    (s.verifyLeases epochs listing).2.node.fenceTtl = s.node.fenceTtl := by
  unfold State.verifyLeases
  cases listing with
  | error e => rfl
  | ok keys =>
    dsimp only
    split_ifs <;> rfl

theorem fenceTtl_step (s : State) (m : Move) : (s.step m).node.fenceTtl = s.node.fenceTtl := by
  cases m with
  | depart i =>
    unfold State.step
    dsimp only
    split
    · rfl
    · split_ifs <;> rfl
  | answer i fault =>
    change (s.answer i fault).node.fenceTtl = _
    unfold State.answer
    split
    · rfl
    next call _ =>
      dsimp only
      cases call.caller <;> exact fenceTtl_verifyLeases ..
  | _ => rfl

/-- A node as `start` leaves it, with the boats that have come to the gate by then. -/
def started (birth : Nat) (rate : ℚ) (skipped fenceTtl stamp : Nat) (epochs : List (Nat × Nat))
    (earliestWrite : Nat) (keys : List LeaseKey) (real : Nat) (waiting : List (Nat × Nat)) :
    State :=
  { node := { clock := ⟨birth, rate, .running skipped⟩, fenceTtl, epochs, verified := stamp,
              earliestWrite }
    keys, real, waiting }

theorem stamped_started (birth : Nat) (rate : ℚ) (skipped fenceTtl stamp : Nat)
    (epochs : List (Nat × Nat)) (earliestWrite : Nat) (keys : List LeaseKey) (real : Nat)
    (waiting : List (Nat × Nat)) :
    Stamped (started birth rate skipped fenceTtl stamp epochs earliestWrite keys real waiting) := by
  refine ⟨fun since skipped hpause => ?_, fun hs => ?_, fun hs => ?_, fun v hv => ?_, trivial⟩
  · cases hpause
  · cases hs
  · cases hs
  · cases hv

/-- Every gate is passed on a recent verification exactly when no list fails a boat whose node has a
stale stamp and is not fenced. -/
theorem gate_recent_iff (birth : Nat) (rate : ℚ) (skipped fenceTtl stamp : Nat)
    (epochs : List (Nat × Nat)) (earliestWrite : Nat) (keys : List LeaseKey) (real : Nat)
    (waiting : List (Nat × Nat)) (moves : List Move) :
    Runs.Throughout State.step (fun s => Recent s.node.fenceTtl s.history)
        (started birth rate skipped fenceTtl stamp epochs earliestWrite keys real waiting) moves ↔
      Runs.Guarded State.step Vouched
        (started birth rate skipped fenceTtl stamp epochs earliestWrite keys real waiting)
        moves := by
  refine Runs.throughout_iff_guarded (I := Stamped) (fun s m => stamped_step (m := m))
    (fun s h => h.recent) (fun s m h hbad => ?_) (stamped_started ..)
  rw [fenceTtl_step]
  exact not_recent_step h m hbad

/-- Two minutes after boot a peer takes block 0 over; the list at the gate fails. -/
def outageRun : List Move :=
  [.pass 120, .create (.lease 0 2), .arrive 0, .depart 0, .answer 0 .failed]

theorem outage_passes_superseded_boat :
    ¬ Runs.Throughout State.step (fun s => Recent s.node.fenceTtl s.history)
      (started 0 1 0 10 0 [(0, 1)] 0 [.lease 0 1] 0 []) outageRun := by
  intro h
  obtain ⟨⟨v, hv, _⟩, _⟩ := h.last
  cases hv

end Fafo.CommitGate
