import Mathlib.Tactic.NormNum
import Fafo.Library.Words
import Fafo.Routing

/-! Lease blocks: the workers of a block, in machine words, against the block of a worker. -/
namespace Fafo.LeaseBlocks

open Words
open Submission (blockStart)

/-- The block of a worker; `none` is a panic. -/
def blockOf (build : Build) (worker logical blocks : Nat) : Option Nat :=
  (mul build worker blocks).bind fun product => div product logical

/-- The workers of a block, from the first to the one after the last. -/
def blockRange (build : Build) (block logical blocks : Nat) : Option (Nat × Nat) :=
  (mul build block logical).bind fun product =>
  (divCeil product blocks).bind fun start =>
  (add build block 1).bind fun next =>
  (mul build next logical).bind fun product =>
  (divCeil product blocks).map fun stop => (start, stop)

/-- The worker is in the range of the block. -/
def Within (build : Build) (logical blocks block worker : Nat) : Prop :=
  ∃ start stop, blockRange build block logical blocks = some (start, stop) ∧
    start ≤ worker ∧ worker < stop

/-- The blocks tile the workers: one range after the other from 0 to the last worker, and in the
range of a block the workers of that block. -/
structure Tiled (build : Build) (logical blocks : Nat) : Prop where
  first : ∃ stop, blockRange build 0 logical blocks = some (0, stop)
  last : ∃ start, blockRange build (blocks - 1) logical blocks = some (start, logical)
  consecutive : ∀ block, block + 1 < blocks → ∃ start seam stop,
    blockRange build block logical blocks = some (start, seam) ∧
      blockRange build (block + 1) logical blocks = some (seam, stop)
  ordered : ∀ block < blocks, ∃ start stop,
    blockRange build block logical blocks = some (start, stop) ∧ start ≤ stop
  own : ∀ worker < logical, ∀ block < blocks, ∃ start stop own,
    blockRange build block logical blocks = some (start, stop) ∧
      blockOf build worker logical blocks = some own ∧
      ((start ≤ worker ∧ worker < stop) ↔ own = block)
  cover : ∀ worker, worker < logical ↔ ∃ block < blocks, Within build logical blocks block worker
  disjoint : ∀ worker, ∀ block < blocks, ∀ block' < blocks,
    Within build logical blocks block worker → Within build logical blocks block' worker →
    block = block'

variable {build : Build} {worker block logical blocks start stop : Nat}

theorem blockStart_eq : blockStart block logical blocks = (block * logical) ⌈/⌉ blocks :=
  (Nat.ceilDiv_eq_add_pred_div _ _).symm

theorem blockStart_le_iff (hb : 0 < blocks) :
    blockStart block logical blocks ≤ worker ↔ block * logical ≤ worker * blocks := by
  rw [blockStart_eq, ceilDiv_le_iff_le_mul hb, Nat.mul_comm blocks worker]

theorem blockOf_eq (hl : 0 < logical) (h : worker * blocks < size) :
    blockOf build worker logical blocks = some (Submission.blockOf worker logical blocks) := by
  rw [blockOf, mul_of_lt h, Option.bind_some, div_of_pos hl, Submission.blockOf]

theorem blockRange_eq (hl : 0 < logical) (hb : block < blocks) (h : logical * blocks < size) :
    blockRange build block logical blocks =
      some (blockStart block logical blocks, blockStart (block + 1) logical blocks) := by
  have hpos : 0 < blocks := by omega
  have hnext : (block + 1) * logical ≤ logical * blocks := by
    rw [Nat.mul_comm logical]
    exact Nat.mul_le_mul_right logical hb
  have hthis : block * logical ≤ (block + 1) * logical :=
    Nat.mul_le_mul_right logical (Nat.le_succ block)
  have hsucc : block + 1 ≤ (block + 1) * logical := Nat.le_mul_of_pos_right _ hl
  have hmul : mul build block logical = some (block * logical) := mul_of_lt (by omega)
  have hadd : add build block 1 = some (block + 1) := add_of_lt (by omega)
  have hmul' : mul build (block + 1) logical = some ((block + 1) * logical) :=
    mul_of_lt (by omega)
  simp only [blockRange, hmul, hadd, hmul', divCeil_of_pos hpos, Option.bind_some,
    Option.map_some, blockStart_eq]

/-- The floor is below a block exactly where the ceiling is above the worker. -/
theorem blockOf_lt_iff (hl : 0 < logical) (hb : 0 < blocks) :
    Submission.blockOf worker logical blocks < block ↔
      worker < blockStart block logical blocks := by
  rw [← Nat.not_le, ← Nat.not_le, blockStart_le_iff hb, Submission.blockOf,
    Nat.le_div_iff_mul_le hl]

theorem blockOf_eq_iff (hl : 0 < logical) (hb : 0 < blocks) :
    (blockStart block logical blocks ≤ worker ∧ worker < blockStart (block + 1) logical blocks) ↔
      Submission.blockOf worker logical blocks = block := by
  rw [← blockOf_lt_iff hl hb, ← Nat.not_lt, ← blockOf_lt_iff hl hb]
  omega

theorem blockStart_mono (hb : 0 < blocks) :
    blockStart block logical blocks ≤ blockStart (block + 1) logical blocks := by
  rw [blockStart_le_iff hb]
  apply Nat.le_trans (Nat.mul_le_mul_right logical (Nat.le_succ block))
  exact (blockStart_le_iff hb).mp (Nat.le_refl _)

theorem blockStart_zero (hb : 0 < blocks) : blockStart 0 logical blocks = 0 := by
  apply Nat.le_zero.mp
  rw [blockStart_le_iff hb]
  omega

theorem blockStart_blocks (hb : 0 < blocks) : blockStart blocks logical blocks = logical := by
  apply Nat.le_antisymm
  · rw [blockStart_le_iff hb, Nat.mul_comm]
  · have h : blockStart blocks logical blocks ≤ blockStart blocks logical blocks := Nat.le_refl _
    rw [blockStart_le_iff hb, Nat.mul_comm] at h
    exact Nat.le_of_mul_le_mul_right h hb

theorem blockOf_lt (hl : 0 < logical) (hb : 0 < blocks) :
    Submission.blockOf worker logical blocks < blocks ↔ worker < logical := by
  rw [blockOf_lt_iff hl hb, blockStart_blocks hb]

theorem within_iff (hl : 0 < logical) (hlt : block < blocks) (h : logical * blocks < size) :
    Within build logical blocks block worker ↔
      Submission.blockOf worker logical blocks = block := by
  rw [← blockOf_eq_iff hl (by omega), Within, blockRange_eq hl hlt h]
  constructor
  · rintro ⟨start, stop, heq, hin⟩
    cases heq
    exact hin
  · intro hin
    exact ⟨_, _, rfl, hin⟩

theorem tiled_of_lt (hl : 0 < logical) (hb : 0 < blocks) (h : logical * blocks < size) :
    Tiled build logical blocks := by
  refine ⟨⟨blockStart 1 logical blocks, ?_⟩, ⟨blockStart (blocks - 1) logical blocks, ?_⟩,
    fun block hlt => ?_, fun block hlt => ?_, fun worker hw block hlt => ?_,
    fun worker => ⟨fun hw => ?_, ?_⟩, fun worker block hlt block' hlt' hin hin' => ?_⟩
  · rw [blockRange_eq hl hb h, blockStart_zero hb]
  · rw [blockRange_eq hl (by omega) h, Nat.sub_add_cancel hb, blockStart_blocks hb]
  · exact ⟨_, _, _, blockRange_eq hl (by omega) h, blockRange_eq hl hlt h⟩
  · exact ⟨_, _, blockRange_eq hl hlt h, blockStart_mono hb⟩
  · have hle : worker * blocks ≤ logical * blocks := Nat.mul_le_mul_right blocks (by omega)
    exact ⟨_, _, _, blockRange_eq hl hlt h, blockOf_eq hl (by omega), blockOf_eq_iff hl hb⟩
  · have hlt := (blockOf_lt hl hb).mpr hw
    exact ⟨_, hlt, (within_iff hl hlt h).mpr rfl⟩
  · rintro ⟨block, hlt, hin⟩
    rw [within_iff hl hlt h] at hin
    rw [← blockOf_lt hl hb, hin]
    exact hlt
  · rw [within_iff hl hlt h] at hin
    rw [within_iff hl hlt' h] at hin'
    exact hin.symm.trans hin'

/-- When the product of the two is not a word, the last range does not end with the last worker:
the end wraps, and it falls short by more than the one worker that the ceiling may add. -/
theorem lt_of_last (hl : 0 < logical) (hb : 0 < blocks) (hword : blocks < size)
    (h : blockRange build (blocks - 1) logical blocks = some (start, logical)) :
    logical * blocks < size := by
  by_contra hge
  obtain ⟨_, _, h⟩ := Option.bind_eq_some_iff.mp h
  obtain ⟨_, _, h⟩ := Option.bind_eq_some_iff.mp h
  obtain ⟨next, hnext, h⟩ := Option.bind_eq_some_iff.mp h
  obtain ⟨product, hproduct, h⟩ := Option.bind_eq_some_iff.mp h
  obtain ⟨stop, hstop, h⟩ := Option.map_eq_some_iff.mp h
  obtain rfl : stop = logical := (Prod.mk.inj h).2
  have hadd : add build (blocks - 1) 1 = some (blocks - 1 + 1) := add_of_lt (by omega)
  rw [hadd, Nat.sub_add_cancel hb] at hnext
  obtain rfl := Option.some.inj hnext
  rw [Nat.mul_comm] at hge
  have hshort : product + size ≤ blocks * stop := fit_of_ge (by omega) hproduct
  rw [divCeil_of_pos hb] at hstop
  have hceil : product ⌈/⌉ blocks ≤ stop - 1 := by
    rw [ceilDiv_le_iff_le_mul hb, Nat.mul_sub_one]
    omega
  have hstop := Option.some.inj hstop
  omega

/-- The blocks tile the workers exactly when their number times that of the workers is a word. -/
theorem tiled_iff (build : Build) {logical blocks : Nat} (hl : 0 < logical) (hb : 0 < blocks)
    (hword : blocks < size) :
    Tiled build logical blocks ↔ logical * blocks < size := by
  constructor
  · intro h
    obtain ⟨start, hlast⟩ := h.last
    exact lt_of_last hl hb hword hlast
  · exact tiled_of_lt hl hb

theorem tiled_iff_hundred : Tiled .release 100 7 ↔ 100 * 7 < size :=
  tiled_iff .release (by decide) (by decide) (by decide)

/-- With 2^60 workers, which gives 256 blocks, the blocks do not tile the workers in either build.
Wrapped, worker 2^56 is of block 0, whose range ends at worker 2^52. -/
theorem not_tiled_of_overflow :
    ¬ Tiled .debug (2 ^ 60) 256 ∧ ¬ Tiled .release (2 ^ 60) 256 ∧
      blockOf .release (2 ^ 56) (2 ^ 60) 256 = some 0 ∧
      blockRange .release 0 (2 ^ 60) 256 = some (0, 2 ^ 52) := by
  refine ⟨fun h => ?_, fun h => ?_, by decide, by decide⟩
  · obtain ⟨start, hlast⟩ := h.last
    have hlt := lt_of_last (by decide) (by decide) (by decide) hlast
    exact absurd hlt (by decide)
  · obtain ⟨start, hlast⟩ := h.last
    have hlt := lt_of_last (by decide) (by decide) (by decide) hlast
    exact absurd hlt (by decide)

end Fafo.LeaseBlocks
