import Fafo.TaskSpecs

/-! Committed history: whose entry a slot holds, over whole runs of boats, compactions and reads. -/
namespace Fafo

open Interleave

variable {ι τ β δ : Type} [LinearOrder ι] [DecidableEq τ]

/-- Each lock is deleted only while the slot still holds an entry of the transaction that the same
task's get has just seen there. -/
def AtomicDeletes (c : JobConfig ι τ β δ) (who : τ) (_ : Env) : Prop :=
  match (c.procs who).prog with
  | .call o _ => DeletesWhatItRead (c.procs who).last o c.shared
  | .ret _ => True

/-- A slot a committed transaction was told of holds its entry from then on, and no two committed
transactions were told of one slot. -/
def HistoryKept (c : JobConfig ι τ β δ) (moves : List (τ × Env)) : Prop :=
  ∀ before after, moves = before ++ after → ∀ txn id seq,
    Note.prewritten txn id seq ∈ (c.run reliable before).shared.notes →
    verdict (c.run reliable before).shared txn = some true →
      Holds (c.run reliable moves).shared id seq txn ∧
      ∀ txn', Note.prewritten txn' id seq ∈ (c.run reliable before).shared.notes →
        verdict (c.run reliable before).shared txn' = some true → txn' = txn

theorem Holds.unique {w : LogWorld ι τ β δ} {id : ι} {seq : Nat} {txn txn' : τ}
    (h : Holds w id seq txn) (h' : Holds w id seq txn') : txn' = txn := by
  obtain ⟨e, he, rfl⟩ := h
  obtain ⟨e', he', rfl⟩ := h'
  rw [he] at he'
  cases he'
  rfl

/-- With no object watched, deleting what was read is the whole condition. -/
theorem AtomicDeletes.steadyStep {c : JobConfig ι τ β δ} {who : τ} {e : Env}
    (h : AtomicDeletes c who e) : SteadyStep (fun _ => []) c who e := by
  unfold AtomicDeletes at h
  unfold SteadyStep
  split
  · next o k hp =>
    rw [hp] at h
    refine ⟨h, ?_⟩
    unfold CommitsBetweenReads
    split
    · exact fun _ _ _ ha => by cases ha
    · trivial
  · trivial

/-- Boats of distinct staging ids, compactions and reads, in any order of their single store
operations: while every delete hits what was read, committed history is append-only. -/
theorem history_kept (Y : Yard β δ) (jobs : τ → Job ι β δ) (moves : List (τ × Env))
    (h : (startJobs Y jobs).Guarded reliable AtomicDeletes moves) :
    HistoryKept (startJobs Y jobs) moves := by
  rintro before after rfl txn id seq hn hv
  have hsteady := h.mono fun _ _ _ => AtomicDeletes.steadyStep
  obtain ⟨hbefore, hafter⟩ := hsteady.append
  have hsound := sound_reachable Y _ jobs hbefore.reach
  have hgrows := grows_reachable Y _ jobs hbefore.reach hafter.reach
  have hheld := hsound.recorded txn id seq hn hv
  refine ⟨?_, fun txn' hn' hv' => hheld.unique (hsound.recorded txn' id seq hn' hv')⟩
  obtain ⟨e, he, rfl⟩ := hheld
  rw [Config.run_append]
  exact ⟨e, hgrows.settled id seq e he hv, rfl⟩

/-- Images that are numbers, and deltas that are added to them. -/
def counterYard : Yard Nat Nat :=
  { images := ⟨0, fun b d => some (b + d), fun _ => 0⟩
    regresses := fun _ _ => false
    ttlMs := 0 }

/-- Boats that each carry one delta to object 0. -/
def counterBoats (_ : Nat) : Job Nat Nat Nat := .ship [⟨0, .delta 1, 0⟩]

/-- A boat's gate lets it through, and its clock reads `now`. -/
def gateMoves (who now : Nat) : List (Nat × Env) :=
  [(who, {}), (who, { verdict := false }), (who, { time := now })]

def turns (who n : Nat) : List (Nat × Env) := List.replicate n (who, {})

/-- Boat 0 takes slot 1 and pauses. Boat 1 finds the lock aged, aborts boat 0, reads the entry it
is to clear, and pauses. Boat 2 clears it too, takes the slot and commits. Then boat 1 deletes. -/
def retakenSlot : List (Nat × Env) :=
  gateMoves 0 0 ++ turns 0 5 ++ gateMoves 1 10 ++ turns 1 10 ++ gateMoves 2 10 ++ turns 2 13 ++
    turns 1 1

theorem retaken_slot_erased : ¬ HistoryKept (startJobs counterYard counterBoats) retakenSlot := by
  intro h
  obtain ⟨⟨e, he, _⟩, _⟩ := h retakenSlot [] (by simp) 2 0 1 (by decide) (by decide)
  cases he

/-- Boat 0 takes slot 1 and pauses; boat 1 aborts it, clears the slot and takes it. -/
def clearedSlot : List (Nat × Env) :=
  gateMoves 0 0 ++ turns 0 5 ++ gateMoves 1 10 ++ turns 1 14

theorem history_kept_clearedSlot :
    HistoryKept (startJobs counterYard counterBoats) clearedSlot := by
  refine history_kept counterYard counterBoats clearedSlot ?_
  have h : AtomicDeletes ((startJobs counterYard counterBoats).run reliable
      (gateMoves 0 0 ++ turns 0 5 ++ gateMoves 1 10 ++ turns 1 10)) 1 {} := by
    intro held hheld
    cases hheld
    rfl
  exact ⟨trivial, trivial, trivial, trivial, trivial, trivial, trivial, trivial, trivial, trivial,
    trivial, trivial, trivial, trivial, trivial, trivial, trivial, trivial, trivial, trivial,
    trivial, h, trivial, trivial, trivial, trivial⟩

end Fafo
