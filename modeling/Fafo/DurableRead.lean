import Fafo.AppendOnly

/-! Durable reads across objects, while boats commit. -/
namespace Fafo

open Interleave

variable {ι τ β δ : Type} [LinearOrder ι] [DecidableEq τ]

/-- The objects a job reads. -/
def Job.reads : Job ι β δ → List ι
  | read ids => ids
  | _ => []

/-- Whatever a durable read queries is a consistent cut of the objects it was given. -/
def ReadsConsistent (M : Images β δ) (jobs : τ → Job ι β δ) (c : JobConfig ι τ β δ) : Prop :=
  ∀ reader conns, Note.queried reader conns ∈ c.shared.notes →
    Cut M (jobs reader).reads c.shared conns

/-- While no transaction commits between two of a read's folds of objects it writes to, and every
delete hits what was read, the images of each durable read are consistent. -/
theorem reads_consistent (Y : Yard β δ) (jobs : τ → Job ι β δ) (moves : List (τ × Env))
    (h : (startJobs Y jobs).Guarded reliable (SteadyStep fun who => (jobs who).reads) moves) :
    (startJobs Y jobs).Throughout reliable (ReadsConsistent Y.images jobs) moves :=
  h.throughout fun _ hr => (sound_reachable Y _ jobs hr).cuts

/-- Boat 0 carries a delta to each of the objects 0 and 1, and task 1 reads both. -/
def transferAndRead : Nat → Job Nat Nat Nat
  | 0 => .ship [⟨0, .delta 1, 0⟩, ⟨1, .delta 1, 0⟩]
  | _ => .read [0, 1]

/-- The reader folds object 0, the boat commits, and the reader folds object 1. -/
def tornRead : List (Nat × Env) :=
  turns 1 5 ++ gateMoves 0 0 ++ turns 0 11 ++ turns 1 8

theorem torn_read : ¬ (startJobs counterYard transferAndRead).Throughout reliable
    (ReadsConsistent counterYard.images transferAndRead) tornRead := by
  intro h
  have hcut := h.last 1 [(1, 1, 1), (0, 0, 0)] (by decide)
  have hiff := hcut.whole 0 (by decide) 1 (by decide) (0, 0) (1, 1) rfl rfl 0 1 1 rfl
    ⟨_, rfl, rfl⟩ ⟨_, rfl, rfl⟩
  exact absurd hiff (by decide)

/-- The boat commits, and then the reader folds both objects. -/
def settledRead : List (Nat × Env) :=
  gateMoves 0 0 ++ turns 0 11 ++ turns 1 15

theorem reads_consistent_settledRead : (startJobs counterYard transferAndRead).Throughout reliable
    (ReadsConsistent counterYard.images transferAndRead) settledRead := by
  refine reads_consistent counterYard transferAndRead settledRead ?_
  iterate 13 refine ⟨⟨trivial, trivial⟩, ?_⟩
  refine ⟨⟨trivial, ?_⟩, ?_⟩
  · -- no fold has started when the boat commits
    rintro _ r a _ b _ _ s t _ _ ⟨rest, hn, _⟩
    have hnotes : Note.folding r a rest ∈ [Note.prewritten 0 1 1, Note.prewritten 0 0 1] := hn
    simp at hnotes
  iterate 15 refine ⟨⟨trivial, trivial⟩, ?_⟩
  trivial

end Fafo
