import Fafo.Deadlock

/-! A transaction runs alone: it holds the head of every participant's queue. -/
namespace Fafo.Acquire

variable {ι : Type} [LinearOrder ι] {site : Site ι} {s : State ι} {w t : Nat}

/-- Anyone may take an object from within its own worker's queue. -/
def Anywhere (_ : Nat) (_ : ι) : Prop := True

theorem singleBut_anywhere (s : State ι) (m : Move ι × Env ι) : SingleBut Anywhere site s m := by
  obtain ⟨m, e⟩ := m
  cases m with
  | pump w => exact fun _ _ _ _ _ _ _ _ _ _ _ _ _ _ _ => trivial
  | take i => exact fun _ _ _ _ _ _ _ _ _ _ => trivial
  | _ => trivial

/-- Where a parked transaction stands in its worker's queues. -/
structure Placed (s : State ι) (w t : Nat) (p : Parked ι) : Prop where
  once : ∀ o, ((s.workers w).queues o).count (.txn t) ≤ 1
  within : ∀ o, .txn t ∈ (s.workers w).queues o → o ∈ p.participants.val.take (p.acquired + 1)
  held : ∀ o ∈ p.participants.val.take p.acquired,
    ((s.workers w).queues o).head? = some (.txn t)

/-- How `run_and_complete` finds and leaves the queues: whatever it pops is the transaction, which
then stands in none. -/
structure RunsAlone (site : Site ι) (s : State ι) (w t : Nat) (p : Parked ι) : Prop where
  heads : ∀ o ∈ p.participants.val, ((s.workers w).queues o).head? = some (.txn t)
  alone : ∀ o ∈ p.participants.val, ∀ u q, (s.workers w).parked u = some q →
    o ∈ q.participants.val.take q.acquired → u = t
  pops : ∀ e before o after, p.participants.val = before ++ o :: after →
    ((((s.perform e w t p).gather (State.pop site e w) before).2.workers w).queues o).head? =
      some (.txn t)
  gone : ∀ e o, .txn t ∉ ((s.runAndComplete site e w t p).2.workers w).queues o

theorem Sound.placed {home : Nat → ι → Prop} (hs : Sound home Nobody s) {p : Parked ι}
    (hp : (s.workers w).parked t = some p) : Placed s w t p where
  once o := List.nodup_iff_count_le_one.mp (hs.nodup w o).of_map _
  within o hmem := by
    obtain ⟨q, hq, ho⟩ := (hs.entry w t o hmem).resolve_left id
    rw [hp] at hq
    cases hq
    exact ho
  held := hs.held w t p hp

/-- No transaction holds an object that another one holds. -/
theorem Sound.holds_one {home : Nat → ι → Prop} (hs : Sound home Nobody s) {u : Nat}
    {p q : Parked ι} (hp : (s.workers w).parked t = some p) (hq : (s.workers w).parked u = some q)
    {o : ι} (ht : o ∈ p.participants.val.take p.acquired)
    (hu : o ∈ q.participants.val.take q.acquired) : u = t := by
  have hhead := hs.held w u q hq o hu
  rw [hs.held w t p hp o ht] at hhead
  cases hhead
  rfl

/-- A transaction that ran is not parked any more. -/
theorem Sound.ran {home : Nat → ι → Prop} (hs : Sound home Nobody s) {e : Env ι} {p : Parked ι}
    (hp : (s.workers w).parked t = some p) (hf : p.frontier = none) :
    ((s.runAndComplete site e w t p).2.workers w).parked t = none := by
  have hdone : Popping home w t [] (s.execute site e w t p).2 :=
    gather_induction (fun _ _ _ h => h.pop) p.participants.val (hs.perform hp hf)
  exact (hdone.trims (trims_maybeLaunch site w)).gone

theorem Sound.runsAlone {home : Nat → ι → Prop} (hs : Sound home Nobody s) {p : Parked ι}
    (hp : (s.workers w).parked t = some p) (hf : p.frontier = none) :
    RunsAlone site s w t p := by
  have htake := p.take_acquired hf
  have hheld := hs.held w t p hp
  rw [htake] at hheld
  refine ⟨hheld, fun o ho u q hq hu => ?_, fun e before o after hsplit => ?_, fun e o hmem => ?_⟩
  · exact hs.holds_one hp hq (by rwa [htake]) hu
  · -- the pops before this one leave the head of every object still to come
    have hstart : Popping home w t (before ++ o :: after) (s.perform e w t p) := by
      rw [← hsplit]
      exact hs.perform hp hf
    have hpopping : Popping home w t (o :: after)
        ((s.perform e w t p).gather (State.pop site e w) before).2 :=
      gather_prefix (fun _ _ _ h => h.pop) before (o :: after) hstart
    exact hpopping.heads o List.mem_cons_self
  · obtain ⟨q, hq, _⟩ := ((hs.runAndComplete hp hf).entry w t o hmem).resolve_left id
    rw [hs.ran hp hf] at hq
    cases hq

/-- Every parked transaction is in its place, and alone if it comes to run. -/
def Exclusive (site : Site ι) (s : State ι) : Prop :=
  ∀ w t p, (s.workers w).parked t = some p →
    Placed s w t p ∧ (p.frontier = none → RunsAlone site s w t p)

/-- In every state of every run a parked transaction stands only where it acquires, holds the heads
it acquired, and runs alone. -/
theorem exclusive (site : Site ι) (moves : List (Move ι × Env ι)) :
    Runs.Throughout (State.step site) (Exclusive site) {} moves := by
  have hstep : ∀ s m, Sound Anywhere Nobody s → Sound Anywhere Nobody (s.step site m) :=
    fun s m hs => sound_step s m hs (singleBut_anywhere s m)
  refine Runs.invariant hstep (fun s hs w t p hp => ?_) Sound.initial moves
  exact ⟨hs.placed hp, hs.runsAlone hp⟩

end Fafo.Acquire
