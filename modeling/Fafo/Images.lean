import Fafo.DeltaShips

/-! The image that the store holds of an object, and what a landed payload does to it. -/
namespace Fafo.Legacy

open Interleave Deltas Bytes

variable {ι τ : Type} [DecidableEq ι] [DecidableEq τ]

section

omit [DecidableEq τ]

theorem parseDeltaCounter_eq_some {object : ι} {key : Key ι τ} {c : Nat} :
    parseDeltaCounter object key = some c ↔ key = .delta object c := by
  cases key <;> simp [parseDeltaCounter]

theorem mem_sortedCounters {object : ι} {keys : List (Key ι τ)} {c : Nat} :
    c ∈ sortedCounters object keys ↔ .delta object c ∈ keys := by
  simp [sortedCounters, parseDeltaCounter_eq_some]

theorem sortedCounters_pairwise (object : ι) {keys : List (Key ι τ)} (h : keys.Nodup) :
    (sortedCounters object keys).Pairwise (· < ·) := by
  have hnodup : (sortedCounters object keys).Nodup := by
    refine (List.perm_insertionSort _ _).nodup_iff.mpr (h.filterMap ?_)
    intro key key' c hc hc'
    rw [Option.mem_def, parseDeltaCounter_eq_some] at hc hc'
    rw [hc, hc']
  have hsorted : (sortedCounters object keys).Pairwise (· ≤ ·) := List.pairwise_insertionSort _ _
  exact (hsorted.and hnodup).imp fun h => Nat.lt_of_le_of_ne h.1 h.2

end

variable {w w' : LegacyWorld ι τ File} {object : ι} {base : File} {c : Nat}

/-- The base of an object. -/
def baseOf (w : LegacyWorld ι τ File) (object : ι) : Option File :=
  (w.get (.base object)).bind fileOf

theorem mem_chain (hbase : baseOf w object = some base) :
    c ∈ chain w object ↔ (w.get (.delta object c)).isSome ∧ changeCounter base < c := by
  rw [chain, show (w.get (.base object)).bind fileOf = some base from hbase]
  dsimp only
  rw [List.mem_filter, mem_sortedCounters, mem_list_iff]
  simp [deltaPrefix]

theorem chain_of_none (hbase : baseOf w object = none) : chain w object = [] := by
  rw [chain, show (w.get (.base object)).bind fileOf = none from hbase]

theorem chain_pairwise (w : LegacyWorld ι τ File) (object : ι) :
    (chain w object).Pairwise (· < ·) := by
  unfold chain
  split
  · refine List.Pairwise.filter _ (sortedCounters_pairwise object ?_)
    exact w.blobs.nodupKeys.filter _
  · exact .nil

/-- A chain is known by its members. -/
theorem chain_eq {cs : List Nat} (hcs : cs.Pairwise (· < ·))
    (h : ∀ c, c ∈ chain w object ↔ c ∈ cs) : chain w object = cs :=
  (chain_pairwise w object).eq_of_mem_iff hcs h

theorem SameObject.chain (h : SameObject object w w') : chain w' object = chain w object := by
  cases hbase : baseOf w object with
  | none =>
    have hbase' : baseOf w' object = none := by rw [baseOf, h.base]; exact hbase
    rw [chain_of_none hbase, chain_of_none hbase']
  | some base =>
    have hbase' : baseOf w' object = some base := by rw [baseOf, h.base]; exact hbase
    refine chain_eq (chain_pairwise w object) fun c => ?_
    rw [mem_chain hbase', mem_chain hbase, h.delta]

theorem SameObject.restored (h : SameObject object w w') :
    restored w' object = restored w object := by
  have hdelta : deltaAt w' object = deltaAt w object := by
    funext c
    rw [deltaAt, h.delta, deltaAt]
  rw [Legacy.restored, Legacy.restored, h.base, h.chain, hdelta]

/-- A snapshot above every delta is the image by itself. -/
theorem chain_of_snapshot (hbase : w'.get (.base object) = some (.bytes base))
    (hbelow : ∀ c, (w'.get (.delta object c)).isSome → c ≤ changeCounter base) :
    chain w' object = [] := by
  have hbase' : baseOf w' object = some base := by rw [baseOf, hbase]; rfl
  refine chain_eq .nil fun c => ?_
  rw [mem_chain hbase']
  constructor
  · rintro ⟨hsome, hlt⟩
    have hle := hbelow c hsome
    omega
  · intro h
    cases h

theorem restored_of_snapshot (hbase : w'.get (.base object) = some (.bytes base))
    (hbelow : ∀ c, (w'.get (.delta object c)).isSome → c ≤ changeCounter base) :
    restored w' object = some base := by
  rw [restored, chain_of_snapshot hbase hbelow, hbase]
  rfl

variable {bytes : File} {delta : Delta}

/-- A delta above the others is applied last. -/
theorem chain_of_delta (hbase : baseOf w object = some base) (hlt : changeCounter base < c)
    (habove : ∀ c', (w.get (.delta object c')).isSome → c' < c)
    (hsame : w'.get (.base object) = w.get (.base object))
    (hdelta : w'.get (.delta object c) = some (.bytes bytes))
    (hothers : ∀ c', c' ≠ c → w'.get (.delta object c') = w.get (.delta object c')) :
    chain w' object = chain w object ++ [c] := by
  have hbase' : baseOf w' object = some base := by rw [baseOf, hsame]; exact hbase
  refine chain_eq ?_ fun c' => ?_
  · refine List.pairwise_append.mpr ⟨chain_pairwise w object, List.pairwise_singleton _ _, ?_⟩
    intro c' hc' d hd
    rw [List.mem_singleton.mp hd]
    exact habove c' ((mem_chain hbase).mp hc').1
  · rw [mem_chain hbase', List.mem_append, mem_chain hbase, List.mem_singleton]
    by_cases hc : c' = c
    · subst hc
      simp [hdelta, hlt]
    · simp [hothers c' hc, hc]

omit [DecidableEq ι] [DecidableEq τ] in
/-- Applying deltas in turn depends only on what is found under their counters. -/
theorem foldlM_apply_congr {f g : Nat → Option Delta} {cs : List Nat} (h : ∀ c ∈ cs, f c = g c)
    (image : File) : cs.foldlM (fun image c => (f c).map (apply image)) image =
      cs.foldlM (fun image c => (g c).map (apply image)) image := by
  induction cs generalizing image with
  | nil => rfl
  | cons c cs ih =>
    obtain ⟨hc, hcs⟩ := List.forall_mem_cons.mp h
    rw [List.foldlM_cons, List.foldlM_cons, hc]
    exact congrArg _ (funext (ih hcs))

theorem restored_of_delta (hbase : baseOf w object = some base) (hlt : changeCounter base < c)
    (habove : ∀ c', (w.get (.delta object c')).isSome → c' < c)
    (hsame : w'.get (.base object) = w.get (.base object))
    (hdelta : w'.get (.delta object c) = some (.bytes bytes))
    (hothers : ∀ c', c' ≠ c → w'.get (.delta object c') = w.get (.delta object c'))
    (hdecode : decode bytes = .ok delta) :
    restored w' object = (restored w object).map fun image => apply image delta := by
  have hat : deltaAt w' object c = some delta := by
    rw [deltaAt, hdelta]
    simp [fileOf, hdecode, Except.toOption]
  have hat' : ∀ c' ∈ chain w object, deltaAt w' object c' = deltaAt w object c' := by
    intro c' hc'
    have hne : c' ≠ c := (habove c' ((mem_chain hbase).mp hc').1).ne
    rw [deltaAt, hothers c' hne, deltaAt]
  rw [restored, restored, chain_of_delta hbase hlt habove hsame hdelta hothers, hsame,
    show (w.get (.base object)).bind fileOf = some base from hbase]
  simp only [Option.bind_some, List.foldlM_append, foldlM_apply_congr hat']
  cases (chain w object).foldlM (fun image c => (deltaAt w object c).map (apply image)) base with
  | none => rfl
  | some image =>
    change (deltaAt w' object c).map (apply image) >>= pure = some (apply image delta)
    rw [hat]
    rfl

section Cold

variable {env : Nat → Env} {image : File}

omit [DecidableEq ι] [DecidableEq τ] in
theorem headerCounter_eq (h : 100 ≤ base.length) :
    headerCounter base = some (changeCounter base) := by
  rw [headerCounter, changeCounter, if_neg (by omega), if_neg (by omega)]

theorem deltaAt_eq_some {delta : Delta} (h : deltaAt w object c = some delta) :
    ∃ bytes, (w.get (.delta object c)).bind fileOf = some bytes ∧ decode bytes = .ok delta := by
  obtain ⟨bytes, hbytes, hdecode⟩ := Option.bind_eq_some_iff.mp h
  refine ⟨bytes, hbytes, ?_⟩
  cases hd : decode bytes with
  | error e =>
    rw [hd] at hdecode
    cases hdecode
  | ok d =>
    rw [hd] at hdecode
    cases hdecode
    rfl

/-- On a store that does not fail, the deltas that the image does not have yet are applied in turn,
and all above the base are counted. -/
theorem applyDeltas_works (hworks : ∀ k, (env k).fault = .none) {b seen : Nat} (hb : b ≤ seen)
    (cs : List Nat) {start : File} (total n : Nat)
    (h : (cs.filter (seen < ·)).foldlM
      (fun image c => (deltaAt w object c).map (apply image)) start = some image) :
    ((applyDeltas object b seen cs start total).solo node env n w).answer =
      .ok (image, total + (cs.filter (b < ·)).length) := by
  induction cs generalizing start total n with
  | nil =>
    obtain rfl := Option.some.inj h
    rfl
  | cons c cs ih =>
    by_cases hc : c ≤ b
    · have hskip : (c :: cs).filter (seen < ·) = cs.filter (seen < ·) :=
        List.filter_cons_of_neg (by simp only [decide_eq_true_eq]; omega)
      have huncounted : (c :: cs).filter (b < ·) = cs.filter (b < ·) :=
        List.filter_cons_of_neg (by simpa using hc)
      rw [hskip] at h
      rw [applyDeltas, if_pos hc, huncounted]
      exact ih total n h
    · have hcounted : (c :: cs).filter (b < ·) = c :: cs.filter (b < ·) :=
        List.filter_cons_of_pos (by simpa using hc)
      have htotal : total + 1 + (cs.filter (b < ·)).length =
          total + (c :: cs.filter (b < ·)).length := by
        rw [List.length_cons]
        omega
      rw [applyDeltas, if_neg hc, hcounted, ← htotal]
      by_cases hhas : c ≤ seen
      · have hskip : (c :: cs).filter (seen < ·) = cs.filter (seen < ·) :=
          List.filter_cons_of_neg (by simpa using hhas)
        rw [hskip] at h
        rw [if_pos hhas]
        exact ih (total + 1) n h
      · have hkeep : (c :: cs).filter (seen < ·) = c :: cs.filter (seen < ·) :=
          List.filter_cons_of_pos (by simpa using hhas)
        rw [hkeep, List.foldlM_cons] at h
        obtain ⟨next, hnext, hrest⟩ := Option.bind_eq_some_iff.mp h
        obtain ⟨delta, hdelta, rfl⟩ := Option.map_eq_some_iff.mp hnext
        obtain ⟨bytes, hbytes, hdecode⟩ := deltaAt_eq_some hdelta
        rw [if_neg hhas,
          Prog.solo_attempt_of_eq node env (solo_get (hworks n) (.delta object c) w), hbytes]
        simp only [hdecode]
        exact ih (total + 1) (n + 1) hrest

end Cold

end Fafo.Legacy
