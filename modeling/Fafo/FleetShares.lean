import Mathlib.Algebra.BigOperators.Ring.Finset
import Mathlib.Algebra.Order.BigOperators.Group.Finset
import Fafo.Fleet
import Fafo.LeaseBlocks

/-! `ClaimSpec::Auto`: how the nodes that boot divide the blocks among themselves. -/
namespace Fafo.Leases

open LeaseBlocks (blockOf)
open Words

variable {f : Fleet} {own : ClaimSpec} {s : State} {n : Nat}

/-- The most that a node may claim. -/
def Fleet.quota (f : Fleet) (n : Nat) : Nat := ((f.spec n).map ClaimSpec.quota).getD 0

/-- A node whose boot is over has met its quota, unless every block is leased. -/
theorem Dividing.quota_le (h : Dividing f s) (hdone : (s.tasks n).2 = .done) {block : Nat}
    (hblock : block < f.blocks) (hfree : ¬ Written s block 1) :
    f.quota n ≤ (s.nodes n).epochs.length := by
  unfold Fleet.quota
  cases hn : f.spec n with
  | none => exact Nat.zero_le _
  | some own =>
    have hstage := h.stage n own hn
    rw [hdone] at hstage
    exact hstage.2.resolve_left fun hall => hfree (hall block hblock)

/-- A node whose boot is over has not claimed more than its quota. -/
theorem Dividing.le_quota (h : Dividing f s) (hdone : (s.tasks n).2 = .done) :
    (s.nodes n).epochs.length ≤ f.quota n := by
  unfold Fleet.quota
  cases hn : f.spec n with
  | none => rw [(h.idle n hn).2, List.length_nil]; exact Nat.zero_le _
  | some own =>
    have hstage := h.stage n own hn
    rw [hdone] at hstage
    exact hstage.1

theorem Dividing.holds_unique (h : Dividing f s) {block m : Nat} (hheld : Holds s n block)
    (hheld' : Holds s m block) : n = m := by
  obtain ⟨⟨b, epoch⟩, hmem, rfl⟩ := List.mem_map.mp hheld
  obtain ⟨⟨b', epoch'⟩, hmem', heq⟩ := List.mem_map.mp hheld'
  cases heq
  have hn := (h.mine n b epoch (.inl hmem)).2
  rw [(h.mine m b epoch' (.inl hmem')).2] at hn
  cases hn
  rfl

theorem Dividing.holds_written (h : Dividing f s) {block : Nat} (hheld : Holds s n block) :
    Written s block 1 := by
  obtain ⟨⟨b, epoch⟩, hmem, rfl⟩ := List.mem_map.mp hheld
  apply AList.lookup_isSome.mp
  rw [(h.mine n b epoch (.inl hmem)).2]
  rfl

theorem Dividing.card_held (h : Dividing f s) (n : Nat) :
    ((s.nodes n).epochs.map Prod.fst).toFinset.card = (s.nodes n).epochs.length := by
  rw [List.toFinset_card_of_nodup (h.distinct n), List.length_map]

/-- The nodes hold at most as many blocks as are leased. -/
theorem Dividing.sum_le (h : Dividing f s) (size : Nat) (blocks : Finset Nat)
    (hblocks : ∀ block, Written s block 1 → block ∈ blocks) :
    ∑ n ∈ Finset.range size, (s.nodes n).epochs.length ≤ blocks.card := by
  calc ∑ n ∈ Finset.range size, (s.nodes n).epochs.length
      = ∑ n ∈ Finset.range size, ((s.nodes n).epochs.map Prod.fst).toFinset.card :=
        Finset.sum_congr rfl fun n _ => (h.card_held n).symm
    _ = ((Finset.range size).biUnion fun n =>
          ((s.nodes n).epochs.map Prod.fst).toFinset).card := by
        refine (Finset.card_biUnion fun n _ m _ hnm => ?_).symm
        apply Finset.disjoint_left.mpr
        intro block hn hm
        exact hnm (h.holds_unique (List.mem_toFinset.mp hn) (List.mem_toFinset.mp hm))
    _ ≤ blocks.card := by
        apply Finset.card_le_card
        intro block hblock
        obtain ⟨n, -, hheld⟩ := Finset.mem_biUnion.mp hblock
        exact hblocks block (h.holds_written (List.mem_toFinset.mp hheld))

/-- Where every block is held, the nodes hold as many. -/
theorem Dividing.le_sum (h : Dividing f s) (size : Nat)
    (hheld : ∀ block < f.blocks, ∃ n < size, Holds s n block) :
    f.blocks ≤ ∑ n ∈ Finset.range size, (s.nodes n).epochs.length := by
  calc f.blocks = (Finset.range f.blocks).card := (Finset.card_range _).symm
    _ ≤ ((Finset.range size).biUnion fun n =>
          ((s.nodes n).epochs.map Prod.fst).toFinset).card := by
        apply Finset.card_le_card
        intro block hblock
        obtain ⟨n, hn, hholds⟩ := hheld block (Finset.mem_range.mp hblock)
        apply Finset.mem_biUnion.mpr
        exact ⟨n, Finset.mem_range.mpr hn, List.mem_toFinset.mpr hholds⟩
    _ ≤ ∑ n ∈ Finset.range size, ((s.nodes n).epochs.map Prod.fst).toFinset.card :=
        Finset.card_biUnion_le
    _ = ∑ n ∈ Finset.range size, (s.nodes n).epochs.length :=
        Finset.sum_congr rfl fun n _ => h.card_held n

/-- When every boot is over and the quotas suffice, every block is held. -/
theorem Dividing.covered (h : Dividing f s) (hdone : ∀ n, (s.tasks n).2 = .done) {size : Nat}
    (hquota : f.blocks ≤ ∑ n ∈ Finset.range size, f.quota n) {block : Nat}
    (hblock : block < f.blocks) : ∃ n, Holds s n block := by
  have hwritten : Written s block 1 := by
    by_contra hfree
    -- a block without a lease is one too few for quotas that were all met
    have hmet : ∑ n ∈ Finset.range size, f.quota n ≤
        ∑ n ∈ Finset.range size, (s.nodes n).epochs.length :=
      Finset.sum_le_sum fun n _ => h.quota_le (hdone n) hblock hfree
    have hle := h.sum_le size ((Finset.range f.blocks).erase block) fun b hb => by
      rw [Finset.mem_erase, Finset.mem_range]
      exact ⟨fun heq => hfree (heq ▸ hb), h.written hb⟩
    rw [Finset.card_erase_of_mem (Finset.mem_range.mpr hblock), Finset.card_range] at hle
    omega
  obtain ⟨blob, hblob⟩ := Option.isSome_iff_exists.mp (AList.lookup_isSome.mpr hwritten)
  obtain ⟨n, -, hc⟩ := h.held block blob hblob
  refine ⟨n, ?_⟩
  rw [h.claims_iff] at hc
  rcases hc with hmem | hclaim
  · exact List.mem_map.mpr ⟨_, hmem, rfl⟩
  · -- a boot that is over claims nothing more
    rw [hdone n] at hclaim
    cases hclaim

/-- When every boot is over and every block is held, the quotas sufficed. -/
theorem Dividing.sufficed (h : Dividing f s) (hdone : ∀ n, (s.tasks n).2 = .done) {size : Nat}
    (hsize : ∀ n, size ≤ n → f.spec n = none)
    (hheld : ∀ block < f.blocks, ∃ n, Holds s n block) :
    f.blocks ≤ ∑ n ∈ Finset.range size, f.quota n := by
  refine (h.le_sum size fun block hblock => ?_).trans
    (Finset.sum_le_sum fun n _ => h.le_quota (hdone n))
  obtain ⟨n, hn⟩ := hheld block hblock
  refine ⟨n, ?_, hn⟩
  by_contra hge
  -- no such node: it holds nothing
  rw [Holds, (h.idle n (hsize n (Nat.le_of_not_lt hge))).2] at hn
  cases hn

/-- The quota of `ClaimSpec::Auto(k)`, in blocks; `none` is a panic. -/
def quotaBlocks (build : Build) (k logical blocks : Nat) : Option Nat :=
  (mul build k blocks).bind fun product => (divCeil product logical).map fun quota => max quota 1

/-- The candidate blocks and the quota of `ClaimSpec::Auto(k)`, of a node whose address has this
hash. -/
def autoClaim (build : Build) (hash k logical blocks : Nat) : Option ClaimSpec :=
  (quotaBlocks build k logical blocks).map fun quota =>
    { candidates := (List.range blocks).map fun i => (hash % blocks + i) % blocks
      quota := quota }

/-- The nodes boot with `Auto(k)` for these `k`, on a fresh cluster of so many workers. -/
def autoFleet (build : Build) (hash : Nat → Nat) (logical : Nat) (ks : List Nat) : Fleet where
  blocks := min logical 256
  spec n := ks[n]?.bind fun k => autoClaim build (hash n) k logical (min logical 256)

theorem mem_candidates {build : Build} {hash k logical blocks block : Nat} {own : ClaimSpec}
    (h : autoClaim build hash k logical blocks = some own) :
    block ∈ own.candidates ↔ block < blocks := by
  obtain ⟨quota, -, rfl⟩ := Option.map_eq_some_iff.mp h
  simp only [List.mem_map, List.mem_range]
  constructor
  · rintro ⟨i, hi, rfl⟩
    exact Nat.mod_lt _ (by omega)
  · intro hblock
    have hstart : hash % blocks < blocks := Nat.mod_lt _ (by omega)
    by_cases hle : hash % blocks ≤ block
    · refine ⟨block - hash % blocks, by omega, ?_⟩
      rw [Nat.add_sub_cancel' hle, Nat.mod_eq_of_lt hblock]
    · -- the scan wraps around
      refine ⟨block + blocks - hash % blocks, by omega, ?_⟩
      rw [Nat.add_sub_cancel' (by omega), Nat.add_mod_right, Nat.mod_eq_of_lt hblock]

section Auto

variable {build : Build} {hash : Nat → Nat} {logical k : Nat} {ks : List Nat}

theorem autoFleet_full (build : Build) (hash : Nat → Nat) (logical : Nat) (ks : List Nat) :
    (autoFleet build hash logical ks).Full := by
  intro n own hn
  obtain ⟨k, -, hclaim⟩ := Option.bind_eq_some_iff.mp hn
  refine ⟨fun block => mem_candidates hclaim, ?_⟩
  obtain ⟨quota, -, rfl⟩ := Option.map_eq_some_iff.mp hclaim
  simp [autoFleet]

/-- The blocks that `Auto(k)` comes to: `k` times the blocks, as far as that is a word, in blocks
rounded up, and at least one. A node that panics has none. -/
def share (build : Build) (logical k : Nat) : Nat :=
  match build with
  | .debug =>
    if k * min logical 256 < size then max ((k * min logical 256) ⌈/⌉ logical) 1 else 0
  | .release => max ((k * min logical 256 % size) ⌈/⌉ logical) 1

theorem quotaBlocks_eq (hl : 0 < logical) :
    (quotaBlocks build k logical (min logical 256)).getD 0 = share build logical k := by
  unfold quotaBlocks mul fit share
  by_cases hlt : k * min logical 256 < size
  · cases build with
    | debug => simp [hlt, divCeil_of_pos hl]
    | release => simp [hlt, divCeil_of_pos hl, Nat.mod_eq_of_lt hlt]
  · cases build with
    | debug => simp [hlt]
    | release => simp [hlt, divCeil_of_pos hl]

theorem autoFleet_quota (hl : 0 < logical) (n : Nat) :
    (autoFleet build hash logical ks).quota n = (ks[n]?.map (share build logical)).getD 0 := by
  unfold Fleet.quota autoFleet
  cases hk : ks[n]? with
  | none => simp [hk]
  | some k =>
    rw [Option.map_some, Option.getD_some, ← quotaBlocks_eq hl]
    simp [hk, autoClaim, Function.comp_def]

theorem sum_getElem? (g : Nat → Nat) (ks : List Nat) :
    ∑ n ∈ Finset.range ks.length, (ks[n]?.map g).getD 0 = (ks.map g).sum := by
  induction ks with
  | nil => rfl
  | cons k ks ih =>
    rw [List.length_cons, Finset.sum_range_succ', List.map_cons, List.sum_cons, ← ih]
    simp [Nat.add_comm]

/-- The nodes' shares come to every block, and in a debug build every worker's block is a word. -/
structure Suffices (build : Build) (logical : Nat) (ks : List Nat) : Prop where
  blocks : min logical 256 ≤ (ks.map (share build logical)).sum
  workers : build = .debug → (logical - 1) * min logical 256 < size

/-- A share whose product with the blocks is a word is not cut. -/
theorem mul_le_share (hl : 0 < logical) (hk : k * min logical 256 < size) :
    k * min logical 256 ≤ logical * share build logical k := by
  have hceil : k * min logical 256 ≤ logical * ((k * min logical 256) ⌈/⌉ logical) :=
    (ceilDiv_le_iff_le_mul hl).mp (Nat.le_refl _)
  refine hceil.trans (Nat.mul_le_mul_left _ ?_)
  cases build with
  | debug =>
    rw [share, if_pos hk]
    exact Nat.le_max_left ..
  | release =>
    rw [share, Nat.mod_eq_of_lt hk]
    exact Nat.le_max_left ..

/-- Without overflow the shares suffice when they add up to the workers. -/
theorem suffices_of_words (hl : 0 < logical) (hks : logical ≤ ks.sum)
    (hword : ∀ k ∈ ks, k * min logical 256 < size)
    (hworkers : (logical - 1) * min logical 256 < size) : Suffices build logical ks := by
  refine ⟨Nat.le_of_mul_le_mul_left ?_ hl, fun _ => hworkers⟩
  have hsum : ks.sum * min logical 256 ≤ logical * (ks.map (share build logical)).sum := by
    clear hks
    induction ks with
    | nil => simp
    | cons k ks ih =>
      have hhead : k * min logical 256 ≤ logical * share build logical k :=
        mul_le_share hl (hword k (List.mem_cons_self ..))
      have htail := ih fun k hk => hword k (List.mem_cons_of_mem _ hk)
      rw [List.sum_cons, List.map_cons, List.sum_cons, Nat.add_mul, Nat.mul_add]
      omega
  exact (Nat.mul_le_mul_right _ hks).trans hsum

/-- A worker's block is a block, if it is a word at all. -/
theorem blockOf_isBlock {worker blocks : Nat} (hw : worker < logical) (hb : 0 < blocks)
    (hword : build = .debug → (logical - 1) * blocks < size) :
    ∃ block < blocks, blockOf build worker logical blocks = some block := by
  have hlt : worker * blocks < logical * blocks := Nat.mul_lt_mul_of_pos_right hw hb
  obtain ⟨product, hproduct, hle⟩ : ∃ product, mul build worker blocks = some product ∧
      product ≤ worker * blocks := by
    by_cases hfits : worker * blocks < size
    · exact ⟨_, mul_of_lt hfits, Nat.le_refl _⟩
    · cases build with
      | debug =>
        have hmax : worker * blocks ≤ (logical - 1) * blocks :=
          Nat.mul_le_mul_right blocks (by omega)
        exact absurd (hmax.trans_lt (hword rfl)) hfits
      | release => exact ⟨_, by rw [mul, fit, if_neg hfits], Nat.mod_le ..⟩
  refine ⟨product / logical, ?_, ?_⟩
  · apply (Nat.div_lt_iff_lt_mul (by omega)).mpr
    rw [Nat.mul_comm]
    omega
  · rw [blockOf, hproduct, Option.bind_some, div_of_pos (by omega)]

/-- Turns enough for every boot to end. -/
theorem exists_turns (size count : Nat) :
    ∃ turns : List Nat, ∀ n < size, count ≤ turns.count n := by
  induction size with
  | zero => exact ⟨[], nofun⟩
  | succ size ih =>
    obtain ⟨turns, hturns⟩ := ih
    refine ⟨turns ++ List.replicate count size, fun n hn => ?_⟩
    rw [List.count_append]
    by_cases hn' : n = size
    · rw [hn', List.count_replicate_self]
      omega
    · exact (hturns n (by omega)).trans (Nat.le_add_right ..)

/-- The nodes that boot divide the workers: in every interleaving no block is claimed by two nodes
and every boot ends; and when the boots are over, if the nodes' shares add up to the workers, every
block and every worker has one node. -/
structure Divides (build : Build) (hash : Nat → Nat) (logical : Nat) (ks : List Nat) : Prop where
  unshared : ∀ turns block n m,
    Holds ((autoFleet build hash logical ks).boot.turns turns) n block →
    Holds ((autoFleet build hash logical ks).boot.turns turns) m block → n = m
  ends : ∀ turns, ∀ n < ks.length, 4 * min logical 256 + 4 ≤ turns.count n →
    (((autoFleet build hash logical ks).boot.turns turns).tasks n).2 = .done
  covered : logical ≤ ks.sum → ∀ turns,
    (∀ n < ks.length, (((autoFleet build hash logical ks).boot.turns turns).tasks n).2 = .done) →
    (∀ block < min logical 256,
      ∃! n, Holds ((autoFleet build hash logical ks).boot.turns turns) n block) ∧
    ∀ worker < logical, ∃ block, blockOf build worker logical (min logical 256) = some block ∧
      ∃! n, Holds ((autoFleet build hash logical ks).boot.turns turns) n block

theorem autoFleet_none {n : Nat} (hn : ks.length ≤ n) :
    (autoFleet build hash logical ks).spec n = none := by
  simp [autoFleet, List.getElem?_eq_none hn]

/-- A boot has so many turns at most. -/
theorem boot_ends (turns : List Nat) (n : Nat) (hcount : 4 * min logical 256 + 4 ≤ turns.count n) :
    (((autoFleet build hash logical ks).boot.turns turns).tasks n).2 = .done := by
  have hfull := autoFleet_full build hash logical ks
  have h := dividing_turns hfull turns
  cases hn : (autoFleet build hash logical ks).spec n with
  | none => exact (h.idle n hn).1
  | some own =>
    have hleft := left_turns hfull hn turns
    have hzero : (((autoFleet build hash logical ks).boot.turns turns).tasks n).2.left
        (min logical 256) = 0 :=
      Nat.eq_zero_of_le_zero (hleft.trans (le_of_eq (Nat.sub_eq_zero_of_le hcount)))
    exact h.done_of_left hn hzero

theorem autoFleet_quotas (hl : 0 < logical) :
    (ks.map (share build logical)).sum =
      ∑ n ∈ Finset.range ks.length, (autoFleet build hash logical ks).quota n := by
  rw [← sum_getElem?]
  symm
  exact Finset.sum_congr rfl fun n _ => autoFleet_quota hl n

/-- A node that there is not is as one whose boot is over. -/
theorem boots_over {turns : List Nat} (hdone : ∀ n < ks.length,
    (((autoFleet build hash logical ks).boot.turns turns).tasks n).2 = .done) (n : Nat) :
    (((autoFleet build hash logical ks).boot.turns turns).tasks n).2 = .done := by
  by_cases hn : n < ks.length
  · exact hdone n hn
  · have h := dividing_turns (autoFleet_full build hash logical ks) turns
    exact (h.idle n (autoFleet_none (Nat.le_of_not_lt hn))).1

theorem suffices_of_divides (hl : 0 < logical) (h : Divides build hash logical ks)
    (hks : logical ≤ ks.sum) : Suffices build logical ks := by
  obtain ⟨turns, hturns⟩ := exists_turns ks.length (4 * min logical 256 + 4)
  have hdone := fun n hn => h.ends turns n hn (hturns n hn)
  obtain ⟨hblocks, hworkers⟩ := h.covered hks turns hdone
  refine ⟨?_, fun hdebug => ?_⟩
  · rw [autoFleet_quotas hl]
    have hinv := dividing_turns (autoFleet_full build hash logical ks) turns
    apply hinv.sufficed (boots_over hdone) fun n => autoFleet_none
    intro block hblock
    exact (hblocks block hblock).exists
  · -- the last worker has a block
    obtain ⟨block, hblock, -⟩ := hworkers (logical - 1) (by omega)
    obtain ⟨product, hproduct, -⟩ := Option.bind_eq_some_iff.mp hblock
    by_contra hge
    simp only [mul, fit, if_neg hge, hdebug, reduceCtorEq] at hproduct

theorem divides_of_suffices (hl : 0 < logical)
    (h : logical ≤ ks.sum → Suffices build logical ks) : Divides build hash logical ks := by
  have hinv := dividing_turns (autoFleet_full build hash logical ks)
  refine ⟨fun turns block n m => (hinv turns).holds_unique, fun turns n _ => boot_ends turns n,
    fun hks turns hdone => ?_⟩
  have hblocks : ∀ block < min logical 256,
      ∃! n, Holds ((autoFleet build hash logical ks).boot.turns turns) n block := by
    intro block hblock
    obtain ⟨n, hn⟩ := (hinv turns).covered (boots_over hdone)
      (by rw [← autoFleet_quotas hl]; exact (h hks).blocks) hblock
    exact ⟨n, hn, fun m hm => (hinv turns).holds_unique hm hn⟩
  refine ⟨hblocks, fun worker hworker => ?_⟩
  obtain ⟨block, hlt, hblock⟩ := blockOf_isBlock hworker (by omega) (h hks).workers
  exact ⟨block, hblock, hblocks block hlt⟩

/-- The nodes that boot divide the workers exactly when what their shares come to suffices. -/
theorem fleet_divides_iff (build : Build) (hash : Nat → Nat) (logical : Nat) (hl : 1 ≤ logical)
    (ks : List Nat) :
    Divides build hash logical ks ↔ (logical ≤ ks.sum → Suffices build logical ks) :=
  ⟨suffices_of_divides hl, divides_of_suffices hl⟩

/-- Two nodes of four workers each divide eight. -/
theorem fleet_divides_two : Divides .debug (fun n => n) 8 [4, 4] :=
  (fleet_divides_iff .debug (fun n => n) 8 (by decide) [4, 4]).mpr fun hks =>
    suffices_of_words (by decide) hks (by decide) (by decide)

/-- Of 2^60 workers in 256 blocks, two nodes of half of them each claim a single block where the
products wrap, and none where they panic. -/
theorem not_divides_of_overflow :
    ¬ Divides .release (fun n => n) (2 ^ 60) [2 ^ 59, 2 ^ 59] ∧
      ¬ Divides .debug (fun n => n) (2 ^ 60) [2 ^ 59, 2 ^ 59] := by
  refine ⟨fun h => ?_, fun h => ?_⟩
  · exact absurd (suffices_of_divides (by decide) h (by decide)).blocks (by decide)
  · exact absurd (suffices_of_divides (by decide) h (by decide)).blocks (by decide)

end Auto

end Fafo.Leases
