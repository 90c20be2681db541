import Mathlib.Data.List.AList
import Mathlib.Data.List.Sort
import Fafo.LeaseBlocks
import Fafo.Library.Intervals

/-! The workers that a node's leases cover, which it keeps as ranges. -/
namespace Fafo.LeaseBlocks

open Intervals Words
open Submission (blockStart)

section Claimed

variable (build : Build) (logical blocks : Nat) (epochs : AList fun _ : Nat => Nat)

/-- `none` is a panic, as it is below. -/
def claimedRanges : Option (List (Nat × Nat)) :=
  ((epochs.keys.insertionSort (· ≤ ·)).mapM fun b => blockRange build b logical blocks).map
    fun ranges => (ranges.foldl extend []).reverse

def claimedWorkers : Option Nat :=
  (claimedRanges build logical blocks epochs).map fun ranges => (ranges.map fun r => r.2 - r.1).sum

def claimed : Option (List Nat) :=
  (claimedRanges build logical blocks epochs).map fun ranges =>
    ranges.flatMap fun r => List.range' r.1 (r.2 - r.1)

def ownsWorker (worker : Nat) : Option Bool :=
  (blockOf build worker logical blocks).map fun b => decide (b ∈ epochs)

end Claimed

variable {build : Build} {logical blocks : Nat} {epochs : AList fun _ : Nat => Nat}

/-- The range of a block, where nothing overflows. -/
def rangeOf (logical blocks b : Nat) : Nat × Nat :=
  (blockStart b logical blocks, blockStart (b + 1) logical blocks)

theorem mapM_blockRange (hl : 0 < logical) (h : logical * blocks < size) {bs : List Nat}
    (hbs : ∀ b ∈ bs, b < blocks) :
    bs.mapM (fun b => blockRange build b logical blocks) =
      some (bs.map (rangeOf logical blocks)) := by
  induction bs with
  | nil => rfl
  | cons b bs ih =>
    obtain ⟨hb, hbs⟩ := List.forall_mem_cons.mp hbs
    rw [List.mapM_cons, blockRange_eq hl hb h, ih hbs]
    rfl

/-- The ranges of blocks in order stand in a row. -/
theorem rangeOf_row (hb : 0 < blocks) {b b' : Nat} (hlt : b < b') :
    (rangeOf logical blocks b).2 ≤ (rangeOf logical blocks b').1 := by
  rw [rangeOf, rangeOf, blockStart_le_iff hb]
  exact (Nat.mul_le_mul_right logical hlt).trans ((blockStart_le_iff hb).mp (Nat.le_refl _))

theorem covers_rangeOf (hl : 0 < logical) {bs : List Nat} (hbs : ∀ b ∈ bs, b < blocks)
    (worker : Nat) : Covers (bs.map (rangeOf logical blocks)) worker ↔
      worker < logical ∧ Submission.blockOf worker logical blocks ∈ bs := by
  constructor
  · rintro ⟨r, hr, hin⟩
    obtain ⟨b, hb, rfl⟩ := List.mem_map.mp hr
    have hlt := hbs b hb
    have hown : Submission.blockOf worker logical blocks = b :=
      (blockOf_eq_iff hl (by omega)).mp hin
    have hin : Submission.blockOf worker logical blocks < blocks := by omega
    refine ⟨(blockOf_lt hl (by omega)).mp hin, ?_⟩
    rw [hown]
    exact hb
  · rintro ⟨_, hmem⟩
    have hlt := hbs _ hmem
    exact ⟨_, List.mem_map_of_mem hmem, (blockOf_eq_iff hl (by omega)).mpr rfl⟩

/-- The blocks that are held, in order. -/
theorem keys_row (epochs : AList fun _ : Nat => Nat) :
    (epochs.keys.insertionSort (· ≤ ·)).Pairwise (· < ·) := by
  have hsorted : (epochs.keys.insertionSort (· ≤ ·)).Pairwise (· ≤ ·) :=
    List.pairwise_insertionSort _ _
  have hnodup : (epochs.keys.insertionSort (· ≤ ·)).Nodup :=
    (List.perm_insertionSort _ _).nodup_iff.mpr epochs.keys_nodup
  exact hsorted.imp₂ (fun _ _ hle hne => Nat.lt_of_le_of_ne hle hne) hnodup

/-- The ranges stay apart and cover what the node owns. -/
theorem claimedRanges_spec (hl : 0 < logical) (hheld : ∀ b ∈ epochs, b < blocks)
    (h : logical * blocks < size) :
    ∃ done, claimedRanges build logical blocks epochs = some done.reverse ∧ Apart done ∧
      ∀ worker, Covers done worker ↔
        worker < logical ∧ Submission.blockOf worker logical blocks ∈ epochs := by
  have hbs : ∀ b ∈ epochs.keys.insertionSort (· ≤ ·), b < blocks :=
    fun b hb => hheld b ((List.mem_insertionSort _).mp hb)
  have hproper : ∀ r ∈ (epochs.keys.insertionSort (· ≤ ·)).map (rangeOf logical blocks),
      r.1 ≤ r.2 := by
    intro r hr
    obtain ⟨b, hb, rfl⟩ := List.mem_map.mp hr
    have := hbs b hb
    exact blockStart_mono (by omega)
  have hrow : ((epochs.keys.insertionSort (· ≤ ·)).map (rangeOf logical blocks)).Pairwise
      fun r r' => r.2 ≤ r'.1 := by
    refine List.pairwise_map.mpr (List.Pairwise.imp_of_mem ?_ (keys_row epochs))
    intro b b' hb _ hlt
    have := hbs b hb
    exact rangeOf_row (by omega) hlt
  obtain ⟨hapart, hcovers⟩ := apart_foldl hproper hrow apart_nil fun last hlast => by cases hlast
  refine ⟨_, ?_, hapart, fun worker => ?_⟩
  · rw [claimedRanges, mapM_blockRange hl h hbs]
    rfl
  · rw [hcovers, covers_rangeOf hl hbs, List.mem_insertionSort]
    simp only [covers_nil, false_or]
    rfl

/-- What the ranges list. -/
theorem mem_flatMap_range {rs : List (Nat × Nat)} {worker : Nat} :
    (worker ∈ rs.flatMap fun r => List.range' r.1 (r.2 - r.1)) ↔ Covers rs worker := by
  simp only [List.mem_flatMap, List.mem_range'_1, Covers]
  refine exists_congr fun r => and_congr_right fun _ => ?_
  omega

theorem pairwise_listed {done : List (Nat × Nat)} (h : Apart done) :
    (done.reverse.flatMap fun r => List.range' r.1 (r.2 - r.1)).Pairwise (· < ·) := by
  refine List.pairwise_flatMap.mpr ⟨fun r _ => List.pairwise_lt_range', ?_⟩
  refine (List.pairwise_reverse.mpr h.apart).imp ?_
  intro r r' hlt x hx y hy
  simp only [List.mem_range'_1] at hx hy
  omega

/-- The workers that a node lists are those that it owns, each once and in order, and as many as it
counts; and no two of its ranges could be one. -/
theorem claimed_are_owned (hl : 0 < logical) (hheld : ∀ b ∈ epochs, b < blocks)
    (h : logical * blocks < size) :
    ∃ ranges workers, claimedRanges build logical blocks epochs = some ranges ∧
      claimed build logical blocks epochs = some workers ∧
      claimedWorkers build logical blocks epochs = some workers.length ∧
      ranges.Pairwise (fun r r' => r.2 < r'.1) ∧ workers.Pairwise (· < ·) ∧
      ∀ worker, worker ∈ workers ↔
        worker < logical ∧ ownsWorker build logical blocks epochs worker = some true := by
  obtain ⟨done, hranges, hapart, hcovers⟩ := @claimedRanges_spec build _ _ _ hl hheld h
  refine ⟨done.reverse, _, hranges, by rw [claimed, hranges]; rfl, ?_,
    List.pairwise_reverse.mpr hapart.apart, pairwise_listed hapart, fun worker => ?_⟩
  · rw [claimedWorkers, hranges, List.length_flatMap]
    simp
  · rw [mem_flatMap_range]
    have hreverse : Covers done.reverse worker ↔ Covers done worker := by simp [Covers]
    rw [hreverse, hcovers]
    refine and_congr_right fun hlt => ?_
    have hfits : worker * blocks < size :=
      (Nat.mul_le_mul_right blocks hlt.le).trans_lt h
    rw [ownsWorker, blockOf_eq hl hfits]
    simp

/-- Blocks 0 and 2 of four, as the leases were taken; worker 1 lies between the ranges. -/
theorem claimed_are_owned_apart :
    ∃ ranges workers, claimedRanges .release 4 4 ((∅ : AList fun _ : Nat => Nat).insert 0 1
        |>.insert 2 1) = some ranges ∧
      claimed .release 4 4 ((∅ : AList fun _ : Nat => Nat).insert 0 1 |>.insert 2 1) =
        some workers ∧ 2 ∈ workers ∧ 1 ∉ workers := by
  obtain ⟨ranges, workers, hranges, hworkers, _, _, _, hmem⟩ :=
    @claimed_are_owned .release 4 4 ((∅ : AList fun _ : Nat => Nat).insert 0 1 |>.insert 2 1)
      (by decide) (by decide) (by decide)
  refine ⟨ranges, workers, hranges, hworkers, (hmem 2).mpr (by decide), fun h => ?_⟩
  exact absurd ((hmem 1).mp h) (by decide)

end Fafo.LeaseBlocks
