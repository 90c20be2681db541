import Fafo.Images

/-! A linear history of an object's images, and the local file that may stand in for the base. -/
namespace Fafo.Legacy

open Interleave Deltas

variable {ι τ : Type} [DecidableEq ι] [DecidableEq τ]

/-- The images shipped of an object, in order: database files, each with a higher change counter
than the one before it. -/
structure Lineage where
  image : Nat → File
  last : Nat
  rises : ∀ j < last, changeCounter (image j) < changeCounter (image (j + 1))
  full : ∀ j ≤ last, 100 ≤ (image j).length

namespace Lineage

variable {L : Lineage} {i j k n : Nat}

def counter (L : Lineage) (j : Nat) : Nat := changeCounter (L.image j)

theorem counter_lt (hij : i < j) (hj : j ≤ L.last) : L.counter i < L.counter j := by
  induction hij with
  | refl => exact L.rises i hj
  | @step j hij ih => exact (ih (by omega)).trans (L.rises j hj)

theorem counter_lt_iff (hi : i ≤ L.last) (hj : j ≤ L.last) :
    L.counter i < L.counter j ↔ i < j := by
  constructor
  · intro h
    by_contra hij
    rcases (Nat.not_lt.mp hij).lt_or_eq with hlt | rfl
    · exact Nat.lt_asymm h (counter_lt hlt hi)
    · omega
  · intro h
    exact counter_lt h hj

theorem counter_le_iff (hi : i ≤ L.last) (hj : j ≤ L.last) :
    L.counter i ≤ L.counter j ↔ i ≤ j := by
  rw [← Nat.not_lt, counter_lt_iff hj hi, Nat.not_lt]

theorem counter_inj (hi : i ≤ L.last) (hj : j ≤ L.last) (h : L.counter i = L.counter j) :
    i = j :=
  Nat.le_antisymm ((counter_le_iff hi hj).mp h.le) ((counter_le_iff hj hi).mp h.ge)

/-- The counters of the `n` states after state `k`. -/
def counters (L : Lineage) (k n : Nat) : List Nat := (List.range' (k + 1) n).map L.counter

theorem counters_succ (L : Lineage) (k n : Nat) :
    L.counters k (n + 1) = L.counter (k + 1) :: L.counters (k + 1) n := rfl

theorem length_counters (L : Lineage) (k n : Nat) : (L.counters k n).length = n := by
  simp [counters]

theorem mem_counters {c : Nat} :
    c ∈ L.counters k n ↔ ∃ j, k ≤ j ∧ j < k + n ∧ c = L.counter (j + 1) := by
  simp only [counters, List.mem_map, List.mem_range'_1]
  constructor
  · rintro ⟨i, hi, rfl⟩
    exact ⟨i - 1, by omega, by omega, by rw [Nat.sub_add_cancel (by omega)]⟩
  · rintro ⟨j, hk, hn, rfl⟩
    exact ⟨j + 1, by omega, rfl⟩

/-- The last of the counters is the greatest. -/
theorem foldl_counters (h : k + n ≤ L.last) :
    (L.counters k n).foldl max (L.counter k) = L.counter (k + n) := by
  induction n generalizing k with
  | zero => rfl
  | succ n ih =>
    have hrises : L.counter k < L.counter (k + 1) := L.rises k (by omega)
    rw [counters_succ, List.foldl_cons, max_eq_right hrises.le, ih (by omega), Nat.add_assoc,
      Nat.add_comm 1 n]

theorem counters_pairwise (h : k + n ≤ L.last) : (L.counters k n).Pairwise (· < ·) := by
  refine List.pairwise_map.mpr ((List.pairwise_lt_range' 1).imp_of_mem ?_)
  intro i j _ hj hij
  rw [List.mem_range'_1] at hj
  exact counter_lt hij (by omega)

/-- A rising list of counters is known by its members. -/
theorem eq_counters {cs : List Nat} (hcs : cs.Pairwise (· < ·)) (h : k + n ≤ L.last)
    (hmem : ∀ c, c ∈ cs ↔ ∃ j, k ≤ j ∧ j < k + n ∧ c = L.counter (j + 1)) :
    cs = L.counters k n :=
  hcs.eq_of_mem_iff (counters_pairwise h) fun c => by rw [hmem, mem_counters]

end Lineage

section Shelf

variable (L : Lineage) (w : LegacyWorld ι τ File) (object : ι)

/-- The delta to the state after state `j` is in the store, and produces it. -/
def Leads (j : Nat) : Prop :=
  ∃ delta, deltaAt w object (L.counter (j + 1)) = some delta ∧
    apply (L.image j) delta = L.image (j + 1)

/-- The store holds state `b` as the base and above it the deltas to state `m`. Superseded deltas
may lie below. -/
structure Shelved (b m : Nat) : Prop where
  le : b ≤ m
  known : m ≤ L.last
  base : baseOf w object = some (L.image b)
  leads : ∀ j, b ≤ j → j < m → Leads L w object j
  others : ∀ c, (w.get (.delta object c)).isSome → L.counter b < c →
    ∃ j, b ≤ j ∧ j < m ∧ c = L.counter (j + 1)

/-- What may lie in the local file of an object: nothing, too little for a database, a state of the
lineage, or an image past all of them. -/
def Commuter (cached : Option File) : Prop :=
  ∀ cache ∈ cached, cache.length < 100 ∨ (∃ k ≤ L.last, cache = L.image k) ∨
    L.counter L.last < changeCounter cache

end Shelf

section

variable {L : Lineage} {w : LegacyWorld ι τ File} {object : ι} {b k m n : Nat}

theorem Leads.isSome {j : Nat} (h : Leads L w object j) :
    (w.get (.delta object (L.counter (j + 1)))).isSome := by
  obtain ⟨delta, hdelta, _⟩ := h
  obtain ⟨bytes, hbytes, _⟩ := deltaAt_eq_some hdelta
  obtain ⟨blob, hblob, _⟩ := Option.bind_eq_some_iff.mp hbytes
  rw [hblob]
  rfl

/-- The deltas that lead on from a state, applied in turn. -/
theorem replay (h : ∀ j, k ≤ j → j < k + n → Leads L w object j) :
    (L.counters k n).foldlM (fun image c => (deltaAt w object c).map (apply image)) (L.image k) =
      some (L.image (k + n)) := by
  induction n generalizing k with
  | zero => rfl
  | succ n ih =>
    obtain ⟨delta, hdelta, happly⟩ := h k le_rfl (by omega)
    have hrest := ih (k := k + 1) fun j hj hjn => h j (by omega) (by omega)
    rw [Lineage.counters_succ, List.foldlM_cons, hdelta]
    change (L.counters (k + 1) n).foldlM _ (apply (L.image k) delta) = _
    rw [happly, hrest, Nat.add_assoc, Nat.add_comm 1 n]

/-- The listed counters above a state from the base on. -/
theorem Shelved.above (h : Shelved L w object b m) (hk : b ≤ k) (hlast : k ≤ L.last) :
    (sortedCounters object (w.blobs.keys.filter (deltaPrefix object))).filter (L.counter k < ·) =
      L.counters k (m - k) := by
  have hknown := h.known
  refine Lineage.eq_counters ?_ (by omega) fun c => ?_
  · exact (sortedCounters_pairwise object (w.blobs.nodupKeys.filter _)).filter _
  · rw [List.mem_filter, mem_sortedCounters, mem_list_iff]
    simp only [deltaPrefix, decide_true, and_true, decide_eq_true_eq]
    constructor
    · rintro ⟨hsome, hlt⟩
      have hbk : L.counter b ≤ L.counter k :=
        (Lineage.counter_le_iff (by omega) (by omega)).mpr hk
      obtain ⟨j, hbj, hjm, rfl⟩ := h.others c hsome (hbk.trans_lt hlt)
      rw [Lineage.counter_lt_iff (by omega) (by omega)] at hlt
      exact ⟨j, by omega, by omega, rfl⟩
    · rintro ⟨j, hkj, hjm, rfl⟩
      refine ⟨(h.leads j (by omega) (by omega)).isSome, ?_⟩
      exact Lineage.counter_lt (by omega) (by omega)

theorem Shelved.durable (h : Shelved L w object b m) :
    ((sortedCounters object (w.blobs.keys.filter (deltaPrefix object))).filter
      (L.counter b < ·)).foldl max (L.counter b) = L.counter m := by
  have hle := h.le
  have hknown := h.known
  rw [h.above le_rfl (hle.trans hknown), Lineage.foldl_counters (by omega), Nat.add_sub_of_le hle]

theorem Shelved.chain (h : Shelved L w object b m) : chain w object = L.counters b (m - b) := by
  have hbase : (w.get (.base object)).bind fileOf = some (L.image b) := h.base
  rw [← h.above le_rfl (h.le.trans h.known), Legacy.chain, hbase]
  rfl

theorem Shelved.length_chain (h : Shelved L w object b m) :
    (Legacy.chain w object).length = m - b := by
  rw [h.chain, Lineage.length_counters]

/-- The newest state that the store holds. -/
theorem Shelved.restored (h : Shelved L w object b m) : restored w object = some (L.image m) := by
  have hle := h.le
  have hbase : (w.get (.base object)).bind fileOf = some (L.image b) := h.base
  have hreplay := replay (k := b) (n := m - b) fun j hj hjm => h.leads j hj (by omega)
  rw [Nat.add_sub_of_le hle] at hreplay
  rw [Legacy.restored, hbase, h.chain]
  exact hreplay

variable {env : Nat → Env} {cached : Option File}

/-- From any state above the base, the rest of the chain leads to the last one. -/
theorem Shelved.applyDeltas (h : Shelved L w object b m) (hworks : ∀ k, (env k).fault = .none)
    (hk : b ≤ k) (hkm : k ≤ m) (n : Nat) :
    ((Legacy.applyDeltas object (L.counter b) (changeCounter (L.image k))
      (sortedCounters object (w.blobs.keys.filter (deltaPrefix object))) (L.image k) 0).solo node
        env n w).answer = .ok (L.image m, m - b) := by
  have hknown := h.known
  have hseen : L.counter b ≤ L.counter k :=
    (Lineage.counter_le_iff (by omega) (by omega)).mpr hk
  have hreplay := replay (k := k) (n := m - k) fun j hj hjm => h.leads j (by omega) (by omega)
  rw [← h.above hk (by omega), Nat.add_sub_of_le hkm] at hreplay
  rw [show changeCounter (L.image k) = L.counter k from rfl,
    applyDeltas_works hworks hseen _ 0 n hreplay, h.above le_rfl (by omega),
    Lineage.length_counters, Nat.zero_add]

/-- Whatever lies in the local file, an activation on a store that does not fail reads the last
state, and counts the deltas above the base. -/
theorem Shelved.fetchImage (h : Shelved L w object b L.last)
    (hworks : ∀ k, (env k).fault = .none) (hcached : Commuter L cached) :
    ((Legacy.fetchImage object cached).solo node env 0 w).answer =
      .ok (L.image L.last, L.last - b) := by
  have hblob : (w.get (.base object)).bind fileOf = some (L.image b) := h.base
  have hheader : headerCounter (L.image b) = some (L.counter b) := headerCounter_eq (L.full b h.le)
  have hdownload : ∀ n, Prog.solo node env ((Store.get (.base object)).attempt fun base =>
      .ret (.ok ((base.bind fileOf).getD [])) : LegacyTry ι τ File File) n w =
        ⟨.ok (L.image b), n + 1, w⟩ := by
    intro n
    rw [Prog.solo_attempt_of_eq node env (solo_get (hworks n) (.base object) w), hblob]
    rfl
  rw [Legacy.fetchImage,
    Prog.solo_attempt_of_eq node env (solo_get (hworks 0) (.base object) w), hblob]
  dsimp only [Option.bind_some]
  rw [hheader]
  dsimp only
  rw [Prog.solo_attempt_of_eq node env (solo_list (hworks 1) (deltaPrefix object) w), h.durable]
  cases hcache : cached.filter fun cache => 100 ≤ cache.length with
  | none =>
    dsimp only
    rw [Prog.solo_attempt_of_eq node env (hdownload 2)]
    exact h.applyDeltas hworks le_rfl h.le 3
  | some cache =>
    obtain ⟨hmem, hlong⟩ := Option.filter_eq_some_iff.mp hcache
    dsimp only
    split_ifs with haccepted
    · obtain hshort | ⟨k, hk, rfl⟩ | hahead := hcached cache hmem
      · simp only [decide_eq_true_eq] at hlong
        omega
      · have hbk : b ≤ k := (Lineage.counter_le_iff h.le hk).mp haccepted.1
        exact h.applyDeltas hworks hbk hk 2
      · exact absurd haccepted.2 (Nat.not_le.mpr hahead)
    · rw [Prog.solo_attempt_of_eq node env (hdownload 2)]
      exact h.applyDeltas hworks le_rfl h.le 3

/-- The local file changes nothing. -/
theorem commuter_cache (h : Shelved L w object b L.last) (hworks : ∀ k, (env k).fault = .none)
    (hcached : Commuter L cached) :
    ((Legacy.fetchImage object cached).solo node env 0 w).answer =
        .ok (L.image L.last, (chain w object).length) ∧
      ((Legacy.fetchImage object cached).solo node env 0 w).answer =
        ((Legacy.fetchImage object none).solo node env 0 w).answer := by
  have hnone : Commuter L none := fun _ hmem => by cases hmem
  rw [h.fetchImage hworks hcached, h.fetchImage hworks hnone, h.length_chain]
  exact ⟨rfl, rfl⟩

end

/-- The smallest database with a change counter of `j + 1`. -/
def edition (j : Nat) : File := List.replicate 27 0 ++ UInt8.ofNat (j + 1) :: List.replicate 72 0

def editions (last : Fin 3) : Lineage where
  image := edition
  last := last
  rises j hj := by
    obtain rfl | rfl : j = 0 ∨ j = 1 := by omega
    all_goals decide
  full := by simp [edition]

/-- The delta to the second edition, as one whole page. -/
def update : Delta where
  counter := 2
  fileLen := 100
  pageSize := 4096
  pages := [(0, edition 1)]

def shelf : LegacyWorld Nat Nat File :=
  ((({ blobs := ∅ } : LegacyWorld Nat Nat File).effect
    (.put (.base 0) (.bytes (edition 0)))).effect (.put (.delta 0 1) (.bytes []))).effect
      (.put (.delta 0 2) (.bytes (encode update)))

theorem decode_update : decode (encode update) = .ok update :=
  decode_encode update (by decide) (by decide)

theorem shelf_delta (c : Nat) : shelf.get (.delta 0 c) =
    if c = 2 then some (.bytes (encode update)) else if c = 1 then some (.bytes []) else none := by
  simp [shelf, World.get_put]
  rfl

theorem shelved_shelf {last : Fin 3} (h : 1 ≤ last.val) : Shelved (editions last) shelf 0 0 1 where
  le := by decide
  known := h
  base := rfl
  leads := by
    intro j _ hj
    obtain rfl : j = 0 := by omega
    have happly : apply (edition 0) update = edition 1 := by decide +kernel
    refine ⟨update, ?_, happly⟩
    rw [deltaAt, show (editions last).counter (0 + 1) = 2 from rfl, shelf_delta]
    simp [fileOf, decode_update, Except.toOption]
  others := by
    intro c hsome hlt
    have hcounter : (editions last).counter 0 = 1 := rfl
    rw [shelf_delta] at hsome
    rw [hcounter] at hlt
    split_ifs at hsome with h2 h1
    · exact ⟨0, le_rfl, by decide, h2.trans rfl⟩
    · omega
    · cases hsome

theorem commuter_edition {last : Fin 3} : Commuter (editions last) (some (edition 0)) := by
  intro cache hmem
  obtain rfl := Option.some.inj hmem
  exact .inr (.inl ⟨0, Nat.zero_le _, rfl⟩)

theorem commuter_cache_shelf :
    ((fetchImage 0 (some (edition 0))).solo node (fun _ => {}) 0 shelf).answer =
        .ok (edition 1, (chain shelf 0).length) ∧
      ((fetchImage 0 (some (edition 0))).solo node (fun _ => {}) 0 shelf).answer =
        ((fetchImage 0 none).solo node (fun _ => {}) 0 shelf).answer := by
  exact commuter_cache (L := editions 1) (shelved_shelf le_rfl) (fun _ => rfl) commuter_edition

end Fafo.Legacy
