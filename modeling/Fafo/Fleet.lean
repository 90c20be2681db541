import Mathlib.Order.Lattice
import Fafo.LeaseHolders

/-! A fleet that boots on a fresh store: what holds at any turn, and that every boot ends. -/
namespace Fafo.Leases

/-- A node is known by its address; it claims nothing if it panics first. -/
structure Fleet where
  blocks : Nat
  spec : Nat → Option ClaimSpec

def Fleet.boot (f : Fleet) : State :=
  start ∅ (fun n => n) fun n => (n, ((f.spec n).map Task.booting).getD .done)

/-- The nodes take turns, an operation each, with no fault and every holder healthy. -/
def State.turns (s : State) (turns : List Nat) : State :=
  Runs.run State.step s (turns.map fun n => .run n {})

/-- `claimed`. -/
def Holds (s : State) (n block : Nat) : Prop := block ∈ (s.nodes n).epochs.map Prod.fst

/-- A lease that a boot has read is of another node, and live. -/
def Snapshot (n : Nat) (written : Nat → Prop) (leases : LeaseMap) : Prop :=
  ∀ block lease, leases block = some lease →
    lease.addr ≠ n ∧ lease.released = false ∧ written block

/-- Each block but those to do is leased by now, unless the quota was met. -/
def Scanned (f : Fleet) (own : ClaimSpec) (written : Nat → Prop) (fresh : Nat)
    (todo : List Nat) : Prop :=
  ∀ block < f.blocks, block ∉ todo → written block ∨ own.quota ≤ fresh

/-- Where the boot of a node with this spec stands, when it holds these epochs and these blocks are
leased. -/
def Stage (f : Fleet) (own : ClaimSpec) (n : Nat) (epochs : List (Nat × Nat))
    (written : Nat → Prop) : Task → Prop
  | .booting spec => spec = own ∧ epochs = []
  | .loading spec _ keys leases => spec = own ∧ epochs = [] ∧
      (blocksOf keys).length ≤ f.blocks ∧
      (∀ key ∈ keys, ∃ block, key = .lease block 1 ∧ written block) ∧ Snapshot n written leases
  | .releasing spec _ leases => spec = own ∧ epochs = [] ∧ Snapshot n written leases
  | .claiming spec todo leases alive fresh => spec = own ∧ fresh = epochs.length ∧
      fresh ≤ own.quota ∧ Snapshot n written leases ∧
      (∀ addr answer, alive addr = some answer → answer = true) ∧
      (∀ block ∈ todo, block < f.blocks) ∧ Scanned f own written fresh todo
  | .claimed block epoch spec todo leases alive fresh => spec = own ∧
      fresh = epochs.length ∧ fresh < own.quota ∧ epoch = 1 ∧ block ∉ epochs.map Prod.fst ∧
      leases block = none ∧ Snapshot n written leases ∧
      (∀ addr answer, alive addr = some answer → answer = true) ∧
      (∀ block ∈ todo, block < f.blocks) ∧ Scanned f own written fresh todo
  | .done => epochs.length ≤ own.quota ∧
      ((∀ block < f.blocks, written block) ∨ own.quota ≤ epochs.length)
  | _ => False

/-- The leases are the first of their blocks, and each is of the node that holds it. -/
structure Dividing (f : Fleet) (s : State) : Prop where
  addr : ∀ n, (s.nodes n).addr = n
  own : ∀ n, (s.tasks n).1 = n
  keys : ∀ key ∈ s.store, ∃ block < f.blocks, key = .lease block 1
  mine : ∀ n block epoch, Claims s n (block, epoch) →
    epoch = 1 ∧ s.store.lookup (.lease block 1) = some (.lease n)
  held : ∀ block blob, s.store.lookup (.lease block 1) = some blob →
    ∃ n, blob = .lease n ∧ Claims s n (block, 1)
  distinct : ∀ n, ((s.nodes n).epochs.map Prod.fst).Nodup
  stage : ∀ n own, f.spec n = some own →
    Stage f own n (s.nodes n).epochs (fun block => Written s block 1) (s.tasks n).2
  idle : ∀ n, f.spec n = none → (s.tasks n).2 = .done ∧ (s.nodes n).epochs = []

variable {f : Fleet} {own : ClaimSpec} {s : State} {n : Nat}

theorem Snapshot.mono {written written' : Nat → Prop} {leases : LeaseMap}
    (h : Snapshot n written leases) (hw : ∀ block, written block → written' block) :
    Snapshot n written' leases := by
  intro block lease hlease
  obtain ⟨haddr, hreleased, hwritten⟩ := h block lease hlease
  exact ⟨haddr, hreleased, hw block hwritten⟩

theorem Scanned.mono {written written' : Nat → Prop} {fresh : Nat} {todo : List Nat}
    (h : Scanned f own written fresh todo) (hw : ∀ block, written block → written' block) :
    Scanned f own written' fresh todo :=
  fun block hblock htodo => (h block hblock htodo).imp_left (hw block)

theorem Stage.mono {epochs : List (Nat × Nat)} {written written' : Nat → Prop} {task : Task}
    (h : Stage f own n epochs written task) (hw : ∀ block, written block → written' block) :
    Stage f own n epochs written' task := by
  cases task with
  | loading spec todo keys leases =>
    obtain ⟨hspec, hepochs, hblocks, hkeys, hsnap⟩ := h
    refine ⟨hspec, hepochs, hblocks, fun key hkey => ?_, hsnap.mono hw⟩
    obtain ⟨block, hblock, hwritten⟩ := hkeys key hkey
    exact ⟨block, hblock, hw block hwritten⟩
  | releasing spec todo leases => exact ⟨h.1, h.2.1, h.2.2.mono hw⟩
  | claiming spec todo leases alive fresh =>
    obtain ⟨hspec, hfresh, hle, hsnap, halive, htodo, hscan⟩ := h
    exact ⟨hspec, hfresh, hle, hsnap.mono hw, halive, htodo, hscan.mono hw⟩
  | claimed block epoch spec todo leases alive fresh =>
    obtain ⟨hspec, hfresh, hlt, hepoch, hnew, hnone, hsnap, halive, htodo, hscan⟩ := h
    exact ⟨hspec, hfresh, hlt, hepoch, hnew, hnone, hsnap.mono hw, halive, htodo, hscan.mono hw⟩
  | done => exact ⟨h.1, h.2.imp_left fun hall block hblock => hw block (hall block hblock)⟩
  | _ => exact h

/-- What a node's claims are, by its own task alone. -/
theorem Dividing.claims_iff (h : Dividing f s) (held : Nat × Nat) :
    Claims s n held ↔ held ∈ (s.nodes n).epochs ∨ (s.tasks n).2.claim = some held := by
  refine or_congr_right ⟨?_, fun hclaim => ⟨n, h.own n, hclaim⟩⟩
  rintro ⟨i, hi, hclaim⟩
  rw [h.own i] at hi
  exact hi ▸ hclaim

/-- A turn of one node: the leases stay, and its own claims are as they should be. -/
theorem Dividing.turn (h : Dividing f s) {s' : State} (task : Task) (hn : f.spec n = some own)
    (htasks : s'.tasks = Function.update s.tasks n (n, task))
    (hnodes : ∀ m, m ≠ n → s'.nodes m = s.nodes m) (haddr : (s'.nodes n).addr = n)
    (hkeys : ∀ key ∈ s'.store, key ∈ s.store ∨ ∃ block < f.blocks, key = .lease block 1)
    (hkept : ∀ block blob, s.store.lookup (.lease block 1) = some blob →
      s'.store.lookup (.lease block 1) = some blob)
    (hmine : ∀ block epoch, (block, epoch) ∈ (s'.nodes n).epochs ∨
      task.claim = some (block, epoch) →
        epoch = 1 ∧ s'.store.lookup (.lease block 1) = some (.lease n))
    (hheld : ∀ block blob, s'.store.lookup (.lease block 1) = some blob →
      s.store.lookup (.lease block 1) = some blob ∨
        blob = .lease n ∧ task.claim = some (block, 1))
    (hclaims : ∀ block, Claims s n (block, 1) →
      (block, 1) ∈ (s'.nodes n).epochs ∨ task.claim = some (block, 1))
    (hdistinct : ((s'.nodes n).epochs.map Prod.fst).Nodup)
    (hstage : Stage f own n (s'.nodes n).epochs (fun block => Written s' block 1) task) :
    Dividing f s' := by
  have hself : s'.tasks n = (n, task) := by rw [htasks, Function.update_self]
  have hother : ∀ m, m ≠ n → s'.tasks m = s.tasks m := by
    intro m hm
    rw [htasks, Function.update_of_ne hm]
  have hown : ∀ m, (s'.tasks m).1 = m := by
    intro m
    by_cases hm : m = n
    · rw [hm, hself]
    · rw [hother m hm, h.own m]
  have hclaims' : ∀ m held, Claims s' m held ↔
      held ∈ (s'.nodes m).epochs ∨ (s'.tasks m).2.claim = some held := by
    intro m held
    refine or_congr_right ⟨?_, fun hclaim => ⟨m, hown m, hclaim⟩⟩
    rintro ⟨i, hi, hclaim⟩
    rw [hown i] at hi
    exact hi ▸ hclaim
  have hothers : ∀ m held, m ≠ n → (Claims s' m held ↔ Claims s m held) := by
    intro m held hm
    rw [hclaims', h.claims_iff, hnodes m hm, hother m hm]
  have hwritten : ∀ block, Written s block 1 → Written s' block 1 := by
    intro block hblock
    obtain ⟨blob, hblob⟩ := Option.isSome_iff_exists.mp (AList.lookup_isSome.mpr hblock)
    exact AList.lookup_isSome.mp (by rw [hkept block blob hblob]; rfl)
  refine ⟨fun m => ?_, hown, fun key hkey => (hkeys key hkey).elim (h.keys key) (fun hk => hk),
    fun m block epoch hc => ?_, fun block blob hblob => ?_, fun m => ?_, fun m claim hm => ?_,
    fun m hm => ?_⟩
  · by_cases hm : m = n
    · rw [hm, haddr]
    · rw [hnodes m hm, h.addr m]
  · by_cases hm : m = n
    · subst hm
      rw [hclaims', hself] at hc
      exact hmine block epoch hc
    · obtain ⟨hone, hlookup⟩ := h.mine m block epoch ((hothers m _ hm).mp hc)
      exact ⟨hone, hkept block _ hlookup⟩
  · rcases hheld block blob hblob with hold | ⟨hnew, hclaim⟩
    · obtain ⟨m, hblob', hc⟩ := h.held block blob hold
      refine ⟨m, hblob', ?_⟩
      by_cases hm : m = n
      · subst hm
        rw [hclaims', hself]
        exact hclaims block hc
      · exact (hothers m _ hm).mpr hc
    · refine ⟨n, hnew, ?_⟩
      rw [hclaims', hself]
      exact .inr hclaim
  · by_cases hm : m = n
    · rw [hm]
      exact hdistinct
    · rw [hnodes m hm]
      exact h.distinct m
  · by_cases hmn : m = n
    · subst hmn
      rw [hn] at hm
      cases hm
      rw [hself]
      exact hstage
    · rw [hother m hmn, hnodes m hmn]
      exact (h.stage m claim hm).mono hwritten
  · have hmn : m ≠ n := by
      rintro rfl
      rw [hm] at hn
      cases hn
    rw [hother m hmn, hnodes m hmn]
    exact h.idle m hm

/-- A task moves on without a claim before or after. -/
theorem Dividing.become (h : Dividing f s) {task : Task} (hbefore : (s.tasks n).2.claim = none)
    (hafter : task.claim = none) (hn : f.spec n = some own)
    (hstage : Stage f own n (s.nodes n).epochs (fun block => Written s block 1) task) :
    Dividing f (s.become n task) := by
  apply h.turn task hn
  · rw [State.become, h.own n]
  · intro m _
    rfl
  · exact h.addr n
  · intro key hkey
    exact .inl hkey
  · intro block blob hblob
    exact hblob
  · intro block epoch hheld
    simp only [hafter, reduceCtorEq, or_false] at hheld
    exact h.mine n block epoch (.inl hheld)
  · intro block blob hblob
    exact .inl hblob
  · intro block hc
    rw [h.claims_iff, hbefore] at hc
    exact .inl (hc.resolve_right (Option.some_ne_none _).symm)
  · exact h.distinct n
  · exact hstage

/-- The boot creates the first lease of a block. -/
theorem Dividing.wins (h : Dividing f s) {block : Nat} {task : Task}
    (hfree : s.store.lookup (.lease block 1) = none) (hblock : block < f.blocks)
    (hbefore : (s.tasks n).2.claim = none) (hafter : task.claim = some (block, 1))
    (hn : f.spec n = some own)
    (hstage : ∀ written : Nat → Prop, written block → (∀ b, Written s b 1 → written b) →
      Stage f own n (s.nodes n).epochs written task) :
    Dividing f (State.become { s with
      store := s.store.insert (.lease block 1) (.lease n)
      created := (block, 1) :: s.created } n task) := by
  have hne : ∀ b blob, s.store.lookup (.lease b 1) = some blob → b ≠ block := by
    rintro b blob hb rfl
    rw [hfree] at hb
    cases hb
  have hlookup : ∀ b, b ≠ block → (s.store.insert (.lease block 1) (.lease n)).lookup
      (.lease b 1) = s.store.lookup (.lease b 1) := by
    intro b hb
    exact AList.lookup_insert_ne fun heq => hb (by cases heq; rfl)
  apply h.turn task hn
  · rw [State.become, h.own n]
  · intro m _
    rfl
  · exact h.addr n
  · intro key hkey
    rcases AList.mem_insert _ |>.mp hkey with hkey | hkey
    · exact .inr ⟨block, hblock, hkey⟩
    · exact .inl hkey
  · intro b blob hb
    exact (hlookup b (hne b blob hb)).trans hb
  · intro b epoch hheld
    rcases hheld with hheld | hclaim
    · obtain ⟨hone, hb⟩ := h.mine n b epoch (.inl hheld)
      exact ⟨hone, (hlookup b (hne b _ hb)).trans hb⟩
    · rw [hafter] at hclaim
      cases hclaim
      exact ⟨rfl, AList.lookup_insert _⟩
  · intro b blob hb
    by_cases hbb : b = block
    · subst hbb
      rw [State.become, AList.lookup_insert] at hb
      cases hb
      exact .inr ⟨rfl, hafter⟩
    · exact .inl ((hlookup b hbb).symm.trans hb)
  · intro b hc
    rw [h.claims_iff, hbefore] at hc
    exact .inl (hc.resolve_right (Option.some_ne_none _).symm)
  · exact h.distinct n
  · apply hstage
    · exact (AList.mem_insert _).mpr (.inl rfl)
    · intro b hb
      exact (AList.mem_insert _).mpr (.inr hb)

/-- The lease that the boot has created goes into its node's epochs. -/
theorem Dividing.holds (h : Dividing f s) {block : Nat} {task : Task}
    (hbefore : (s.tasks n).2.claim = some (block, 1)) (hafter : task.claim = none)
    (hn : f.spec n = some own) (hnew : block ∉ (s.nodes n).epochs.map Prod.fst)
    (hstage : Stage f own n ((block, 1) :: (s.nodes n).epochs) (fun b => Written s b 1) task) :
    Dividing f ((s.setNode n ((s.nodes n).hold block 1)).become n task) := by
  have hepochs : (((s.setNode n ((s.nodes n).hold block 1)).become n task).nodes n).epochs =
      (block, 1) :: (s.nodes n).epochs := by
    simp only [State.become, State.setNode, Function.update_self, Incarnation.hold]
    rw [List.filter_eq_self.mpr]
    intro held hheld
    refine decide_eq_true fun heq => hnew ?_
    exact List.mem_map.mpr ⟨held, hheld, heq⟩
  apply h.turn task hn
  · rw [State.become, State.setNode, h.own n]
  · intro m hm
    exact Function.update_of_ne hm ..
  · simpa [State.become, State.setNode, Incarnation.hold] using h.addr n
  · intro key hkey
    exact .inl hkey
  · intro b blob hb
    exact hb
  · intro b epoch hheld
    simp only [hafter, reduceCtorEq, or_false, hepochs, List.mem_cons] at hheld
    apply h.mine n b epoch
    rw [h.claims_iff, hbefore]
    rcases hheld with hb | hheld
    · exact .inr (congrArg some hb.symm)
    · exact .inl hheld
  · intro b blob hb
    exact .inl hb
  · intro b hc
    rw [h.claims_iff, hbefore] at hc
    rw [hepochs, List.mem_cons]
    rcases hc with hheld | hclaim
    · exact .inl (.inr hheld)
    · cases hclaim
      exact .inl (.inl rfl)
  · rw [hepochs]
    exact List.nodup_cons.mpr ⟨hnew, h.distinct n⟩
  · rw [hepochs]
    exact hstage

/-- Every node tries every block. -/
def Fleet.Full (f : Fleet) : Prop :=
  ∀ n own, f.spec n = some own →
    (∀ block, block ∈ own.candidates ↔ block < f.blocks) ∧ own.candidates.length = f.blocks

theorem maxEpoch_mem {keys : List LeaseKey} {block epoch : Nat}
    (h : maxEpoch keys block = some epoch) : .lease block epoch ∈ keys := by
  obtain ⟨key, hkey, hepoch⟩ := List.mem_filterMap.mp (List.max?_mem h)
  cases key with
  | lease b e =>
    simp only [LeaseKey.epochOf] at hepoch
    split_ifs at hepoch with hb
    cases hepoch
    exact hb ▸ hkey
  | tombstone => cases hepoch
  | other => cases hepoch

theorem Dividing.written (h : Dividing f s) {block : Nat} (hw : Written s block 1) :
    block < f.blocks := by
  obtain ⟨b, hb, heq⟩ := h.keys _ hw
  cases heq
  exact hb

theorem Dividing.blocksOf_le (h : Dividing f s) : (blocksOf s.store.keys).length ≤ f.blocks := by
  have hsub : blocksOf s.store.keys ⊆ List.range f.blocks := by
    intro block hblock
    obtain ⟨key, hkey, hb⟩ := List.mem_filterMap.mp (List.mem_dedup.mp hblock)
    obtain ⟨b, hlt, rfl⟩ := h.keys key (AList.mem_keys.mp hkey)
    cases hb
    exact List.mem_range.mpr hlt
  have hle := (List.subperm_of_subset (List.nodup_dedup _) hsub).length_le
  rwa [List.length_range] at hle

/-- A boot that holds nothing reads other nodes' leases only. -/
theorem Dividing.foreign (h : Dividing f s) (hepochs : (s.nodes n).epochs = [])
    (hclaim : (s.tasks n).2.claim = none) {block : Nat} {blob : LeaseBlob}
    (hblob : s.store.lookup (.lease block 1) = some blob) :
    ∃ addr, blob = .lease addr ∧ addr ≠ n := by
  obtain ⟨m, rfl, hc⟩ := h.held block blob hblob
  refine ⟨m, rfl, fun hm => ?_⟩
  rw [hm, h.claims_iff, hepochs, hclaim] at hc
  rcases hc with hc | hc <;> cases hc

theorem dividing_booting (h : Dividing f s) (hn : f.spec n = some own) {spec : ClaimSpec}
    (htask : (s.tasks n).2 = .booting spec) : Dividing f (s.run n {}) := by
  have hstage := h.stage n own hn
  rw [htask] at hstage
  obtain ⟨hspec, hepochs⟩ := hstage
  have hrun : s.run n {} = s.become n
      (.loading spec (blocksOf s.store.keys) s.store.keys fun _ => none) := by
    simp [State.run, htask]
  rw [hrun]
  refine h.become (by rw [htask]; rfl) rfl hn
    ⟨hspec, hepochs, h.blocksOf_le, fun key hkey => ?_, nofun⟩
  have hmem := AList.mem_keys.mp hkey
  obtain ⟨block, -, rfl⟩ := h.keys key hmem
  exact ⟨block, rfl, hmem⟩

theorem dividing_loading (h : Dividing f s) (hn : f.spec n = some own) {spec : ClaimSpec}
    {todo : List Nat} {keys : List LeaseKey} {leases : LeaseMap}
    (htask : (s.tasks n).2 = .loading spec todo keys leases) : Dividing f (s.run n {}) := by
  have hstage := h.stage n own hn
  rw [htask] at hstage
  obtain ⟨hspec, hepochs, hblocks, hkeys, hsnap⟩ := hstage
  have hbefore : (s.tasks n).2.claim = none := by rw [htask]; rfl
  have hrun : s.run n {} = s.load n spec todo keys leases {} := by simp only [State.run, htask]
  rw [hrun]
  cases todo with
  | nil => exact h.become hbefore rfl hn ⟨hspec, hepochs, hsnap⟩
  | cons block todo =>
    rw [State.load]
    dsimp only
    cases hmax : maxEpoch keys block with
    | none => exact h.become hbefore rfl hn ⟨hspec, hepochs, hblocks, hkeys, hsnap⟩
    | some epoch =>
      -- the key was listed, so the lease is there
      obtain ⟨b, heq, hwritten⟩ := hkeys _ (maxEpoch_mem hmax)
      cases heq
      obtain ⟨blob, hblob⟩ := Option.isSome_iff_exists.mp (AList.lookup_isSome.mpr hwritten)
      obtain ⟨addr, rfl, haddr⟩ := h.foreign hepochs hbefore hblob
      have hlive : ¬ .tombstone block 1 ∈ keys := by
        intro hmem
        obtain ⟨b, heq, -⟩ := hkeys _ hmem
        cases heq
      simp only [ne_eq, not_true_eq_false, if_false, hblob]
      refine h.become hbefore rfl hn ⟨hspec, hepochs, hblocks, hkeys, ?_⟩
      intro b lease hlease
      by_cases hb : b = block
      · subst hb
        rw [Function.update_self] at hlease
        cases hlease
        exact ⟨haddr, decide_eq_false hlive, hwritten⟩
      · rw [Function.update_of_ne hb] at hlease
        exact hsnap b lease hlease

theorem dividing_releasing (h : Dividing f s) (hn : f.spec n = some own) (hfull : f.Full)
    {spec : ClaimSpec} {todo : List Nat} {leases : LeaseMap}
    (htask : (s.tasks n).2 = .releasing spec todo leases) : Dividing f (s.run n {}) := by
  have hstage := h.stage n own hn
  rw [htask] at hstage
  obtain ⟨hspec, hepochs, hsnap⟩ := hstage
  have hbefore : (s.tasks n).2.claim = none := by rw [htask]; rfl
  have hrun : s.run n {} = s.release n spec todo leases {} := by simp only [State.run, htask]
  rw [hrun]
  cases todo with
  | nil =>
    refine h.become hbefore rfl hn
      ⟨hspec, by rw [hepochs]; rfl, Nat.zero_le _, hsnap, nofun, ?_, ?_⟩
    · intro block hblock
      rw [hspec] at hblock
      exact ((hfull n own hn).1 block).mp hblock
    · intro block hblock htodo
      rw [hspec] at htodo
      exact absurd (((hfull n own hn).1 block).mpr hblock) htodo
  | cons block todo =>
    rw [State.release]
    cases hlease : leases block with
    | none => exact h.become hbefore rfl hn ⟨hspec, hepochs, hsnap⟩
    | some lease =>
      -- the lease is another node's
      have haddr := (hsnap block lease hlease).1
      rw [h.own n, h.addr n]
      dsimp only
      rw [if_neg fun hours => haddr hours.1]
      exact h.become hbefore rfl hn ⟨hspec, hepochs, hsnap⟩

theorem createLease_none {block epoch addr : Nat} :
    s.createLease block epoch addr .none =
      if (s.store.lookup (.lease block epoch)).isNone then
        (.ok true, { s with
          store := s.store.insert (.lease block epoch) (.lease addr)
          created := (block, epoch) :: s.created })
      else (.ok false, s) := by
  by_cases habsent : (s.store.lookup (.lease block epoch)).isNone
  · simp [State.createLease, State.create, habsent]
  · simp [State.createLease, State.create, habsent]

theorem dividing_claiming (h : Dividing f s) (hn : f.spec n = some own) {spec : ClaimSpec}
    {todo : List Nat} {leases : LeaseMap} {alive : Nat → Option Bool} {fresh : Nat}
    (htask : (s.tasks n).2 = .claiming spec todo leases alive fresh) :
    Dividing f (s.run n {}) := by
  have hstage := h.stage n own hn
  rw [htask] at hstage
  obtain ⟨hspec, hfresh, hle, hsnap, halive, htodo, hscan⟩ := hstage
  have hbefore : (s.tasks n).2.claim = none := by rw [htask]; rfl
  have hrun : s.run n {} = s.claim n spec todo leases alive fresh {} := by
    simp only [State.run, htask]
  rw [hrun]
  cases todo with
  | nil =>
    refine h.become hbefore rfl hn ⟨hfresh ▸ hle, ?_⟩
    by_cases hquota : own.quota ≤ fresh
    · exact .inr (hfresh ▸ hquota)
    · exact .inl fun block hblock => (hscan block hblock nofun).resolve_right hquota
  | cons block todo =>
    have htodo' : ∀ b ∈ todo, b < f.blocks := fun b hb => htodo b (List.mem_cons_of_mem _ hb)
    -- the next block is scanned once it is leased, or the quota is met
    have hnext : ∀ written : Nat → Prop, (∀ b, Written s b 1 → written b) →
        (written block ∨ own.quota ≤ fresh) → Scanned f own written fresh todo := by
      intro written hw hblock b hb hmem
      by_cases hbb : b = block
      · exact hbb ▸ hblock
      · exact (hscan b hb (by simp [hbb, hmem])).imp_left (hw b)
    rw [State.claim, h.own n, h.addr n]
    cases hlease : leases block with
    | some lease =>
      -- another node holds it, and answers
      obtain ⟨haddr, hreleased, hwritten⟩ := hsnap block lease hlease
      have hhealthy : State.health alive lease.addr true = true := by
        unfold State.health
        cases hanswer : alive lease.addr with
        | none => rfl
        | some answer => exact halive _ _ hanswer
      simp only [hreleased, haddr, hhealthy, decide_false, Bool.or_false, Bool.not_true,
        Bool.not_false, if_true, Bool.false_eq_true, if_false]
      refine h.become hbefore rfl hn ⟨hspec, hfresh, hle, hsnap, fun addr answer hanswer => ?_,
        htodo', hnext _ (fun _ hw => hw) (.inl hwritten)⟩
      by_cases haddr' : addr = lease.addr
      · rw [haddr', Function.update_self] at hanswer
        exact (Option.some.inj hanswer).symm
      · rw [Function.update_of_ne haddr'] at hanswer
        exact halive addr answer hanswer
    | none =>
      simp only [Bool.not_true, Bool.false_eq_true, if_false, Option.isNone_none, true_and,
        Option.map_none, Option.getD_none, Nat.zero_add]
      split_ifs with hquota
      · exact h.become hbefore rfl hn ⟨hspec, hfresh, hle, hsnap, halive, htodo',
          hnext _ (fun _ hw => hw) (.inr (hspec ▸ hquota))⟩
      · rw [createLease_none]
        split_ifs with habsent
        · have hfree : s.store.lookup (.lease block 1) = none :=
            Option.isNone_iff_eq_none.mp habsent
          refine h.wins hfree (htodo block (List.mem_cons_self ..)) hbefore rfl hn
            fun written hblock hw => ⟨hspec, hfresh, hspec ▸ Nat.lt_of_not_le hquota, rfl,
              fun hmem => ?_, hlease, hsnap.mono hw, halive, htodo', hnext written hw (.inl hblock)⟩
          -- what the node holds is in the store
          obtain ⟨⟨b, epoch⟩, hheld, rfl⟩ := List.mem_map.mp hmem
          have hlookup := (h.mine n b epoch (.inl hheld)).2
          rw [hfree] at hlookup
          cases hlookup
        · have hwritten : Written s block 1 := by
            rw [Written, ← AList.lookup_isSome, Option.isSome_iff_ne_none]
            simpa using habsent
          exact h.become hbefore rfl hn ⟨hspec, hfresh, hle, hsnap, halive, htodo',
            hnext _ (fun _ hw => hw) (.inl hwritten)⟩

theorem dividing_claimed (h : Dividing f s) (hn : f.spec n = some own) {block epoch : Nat}
    {spec : ClaimSpec} {todo : List Nat} {leases : LeaseMap} {alive : Nat → Option Bool}
    {fresh : Nat} (htask : (s.tasks n).2 = .claimed block epoch spec todo leases alive fresh) :
    Dividing f (s.run n {}) := by
  have hstage := h.stage n own hn
  rw [htask] at hstage
  obtain ⟨hspec, hfresh, hlt, rfl, hnew, hnone, hsnap, halive, htodo, hscan⟩ := hstage
  have hrun : s.run n {} = (s.setNode n ((s.nodes n).hold block 1)).become n
      (.claiming spec todo leases alive (fresh + 1)) := by
    simp [State.run, htask, h.own n, hnone]
  rw [hrun]
  refine h.holds (by rw [htask]; rfl) rfl hn hnew ⟨hspec, ?_, hlt, hsnap, halive, htodo, ?_⟩
  · rw [hfresh, List.length_cons]
  · intro b hb hmem
    exact (hscan b hb hmem).imp_right Nat.le_succ_of_le

/-- A turn of any node. -/
theorem dividing_run (h : Dividing f s) (hfull : f.Full) (n : Nat) : Dividing f (s.run n {}) := by
  cases hn : f.spec n with
  | none => simpa only [State.run, (h.idle n hn).1] using h
  | some own =>
    cases htask : (s.tasks n).2 with
    | booting spec => exact dividing_booting h hn htask
    | loading spec todo keys leases => exact dividing_loading h hn htask
    | releasing spec todo leases => exact dividing_releasing h hn hfull htask
    | claiming spec todo leases alive fresh => exact dividing_claiming h hn htask
    | claimed block epoch spec todo leases alive fresh => exact dividing_claimed h hn htask
    | done => simpa only [State.run, htask] using h
    | _ =>
      have hstage := h.stage n own hn
      rw [htask] at hstage
      exact hstage.elim

theorem dividing_boot (f : Fleet) : Dividing f f.boot := by
  have hclaims : ∀ n held, ¬ Claims f.boot n held := by
    rintro n held (hmem | ⟨i, -, hclaim⟩)
    · cases hmem
    · change (((f.spec i).map Task.booting).getD .done).claim = _ at hclaim
      cases hspec : f.spec i with
      | none =>
        rw [hspec] at hclaim
        cases hclaim
      | some own =>
        rw [hspec] at hclaim
        cases hclaim
  refine ⟨fun _ => rfl, fun _ => rfl, fun key hkey => absurd hkey (AList.notMem_empty key),
    fun n block epoch hc => absurd hc (hclaims n _), fun block blob hblob => ?_,
    fun _ => List.nodup_nil, fun n own hn => ?_, fun n hn => ⟨?_, rfl⟩⟩
  · cases hblob
  · change Stage f own n [] _ (((f.spec n).map Task.booting).getD .done)
    rw [hn]
    exact ⟨rfl, rfl⟩
  · change ((f.spec n).map Task.booting).getD .done = _
    rw [hn]
    rfl

theorem dividing_turns (hfull : f.Full) (turns : List Nat) : Dividing f (f.boot.turns turns) := by
  suffices hrun : ∀ s, Dividing f s → Dividing f (s.turns turns) from hrun _ (dividing_boot f)
  intro s h
  induction turns generalizing s with
  | nil => exact h
  | cons n turns ih => exact ih _ (dividing_run h hfull n)

/-- How many turns a boot may still take. -/
def Task.left (blocks : Nat) : Task → Nat
  | .booting _ => 4 * blocks + 4
  | .loading _ todo _ _ => todo.length + 3 * blocks + 3
  | .releasing _ todo _ => todo.length + 2 * blocks + 2
  | .claiming _ todo .. => 2 * todo.length + 1
  | .claimed _ _ _ todo .. => 2 * todo.length + 2
  | _ => 0

/-- The turn is the node's own, and leaves its boot at most `k` more. -/
def Spends (blocks : Nat) (s t : State) (n k : Nat) : Prop :=
  ∃ task, t.tasks = Function.update s.tasks n (n, task) ∧ task.left blocks ≤ k

section Spends

variable {blocks k : Nat} {spec : ClaimSpec} {todo : List Nat} {leases : LeaseMap}

theorem Spends.become (hown : (s.tasks n).1 = n) {t : State} (ht : t.tasks = s.tasks) {task : Task}
    (hleft : task.left blocks ≤ k) : Spends blocks s (t.become n task) n k := by
  refine ⟨task, ?_, hleft⟩
  rw [State.become, ht, hown]

theorem load_spends (hown : (s.tasks n).1 = n) {keys : List LeaseKey}
    (hblocks : (blocksOf keys).length ≤ blocks) :
    Spends blocks s (s.load n spec todo keys leases {}) n (todo.length + 3 * blocks + 2) := by
  cases todo with
  | nil =>
    refine .become hown rfl ?_
    simp only [Task.left, List.length_nil]
    omega
  | cons block todo =>
    have hnext : ∀ leases, (Task.loading spec todo keys leases).left blocks ≤
        (block :: todo).length + 3 * blocks + 2 := by
      intro leases
      simp only [Task.left, List.length_cons]
      omega
    rw [State.load]
    dsimp only
    split
    · exact .become hown rfl (hnext _)
    · rw [if_neg (by simp)]
      split
      · exact .become hown rfl (hnext _)
      · exact .become hown rfl (hnext _)
      · exact .become hown rfl (Nat.zero_le _)

theorem release_spends (hown : (s.tasks n).1 = n) (hcandidates : spec.candidates.length = blocks) :
    Spends blocks s (s.release n spec todo leases {}) n (todo.length + 2 * blocks + 1) := by
  cases todo with
  | nil =>
    refine .become hown rfl ?_
    simp only [Task.left, List.length_nil, hcandidates]
    omega
  | cons block todo =>
    have hnext : ∀ leases, (Task.releasing spec todo leases).left blocks ≤
        (block :: todo).length + 2 * blocks + 1 := by
      intro leases
      simp only [Task.left, List.length_cons]
      omega
    rw [State.release]
    split
    · split_ifs
      · exact .become hown (create_frame ..).2.1 (hnext _)
      · exact .become hown rfl (hnext _)
    · exact .become hown rfl (hnext _)

theorem claim_spends (hown : (s.tasks n).1 = n) {alive : Nat → Option Bool} {fresh : Nat} :
    Spends blocks s (s.claim n spec todo leases alive fresh {}) n (2 * todo.length) := by
  cases todo with
  | nil => exact .become hown rfl (Nat.zero_le _)
  | cons block todo =>
    have hnext : ∀ alive, (Task.claiming spec todo leases alive fresh).left blocks ≤
        2 * (block :: todo).length := by
      intro alive
      simp only [Task.left, List.length_cons]
      omega
    rw [State.claim]
    dsimp only
    rw [createLease_none]
    split_ifs
    · exact .become hown rfl (hnext _)
    · exact .become hown rfl (hnext _)
    · refine .become hown rfl ?_
      simp only [Task.left, List.length_cons]
      omega
    · exact .become hown rfl (hnext _)

end Spends

/-- A turn brings a boot closer to the end. -/
theorem run_left (h : Dividing f s) (hfull : f.Full) (hn : f.spec n = some own) :
    Spends f.blocks s (s.run n {}) n ((s.tasks n).2.left f.blocks - 1) := by
  have hown := h.own n
  have hstage := h.stage n own hn
  unfold State.run
  cases htask : (s.tasks n).2 with
  | booting spec =>
    refine .become hown rfl ?_
    have hle := h.blocksOf_le
    simp only [Task.left]
    omega
  | loading spec todo keys leases =>
    rw [htask] at hstage
    obtain ⟨-, -, hblocks, -, -⟩ := hstage
    exact load_spends hown hblocks
  | releasing spec todo leases =>
    rw [htask] at hstage
    obtain ⟨hspec, -, -⟩ := hstage
    exact release_spends hown (by rw [hspec, (hfull n own hn).2])
  | claiming spec todo leases alive fresh => exact claim_spends hown
  | claimed block epoch spec todo leases alive fresh =>
    refine .become hown rfl ?_
    simp only [Task.left]
    omega
  | done =>
    refine ⟨.done, ?_, Nat.zero_le _⟩
    have hsame : s.tasks n = (n, .done) := Prod.ext hown htask
    dsimp only
    rw [← hsame, Function.update_eq_self]
  | _ =>
    rw [htask] at hstage
    exact hstage.elim

/-- What a boot has left after these turns. -/
theorem left_turns (hfull : f.Full) (hn : f.spec n = some own) (turns : List Nat) :
    ((f.boot.turns turns).tasks n).2.left f.blocks ≤ 4 * f.blocks + 4 - turns.count n := by
  suffices hrun : ∀ s, Dividing f s → ((s.turns turns).tasks n).2.left f.blocks ≤
      (s.tasks n).2.left f.blocks - turns.count n by
    refine (hrun _ (dividing_boot f)).trans (Nat.sub_le_sub_right (le_of_eq ?_) _)
    change (((f.spec n).map Task.booting).getD .done).left f.blocks = _
    rw [hn]
    rfl
  intro s h
  induction turns generalizing s with
  | nil => exact le_rfl
  | cons m turns ih =>
    refine (ih _ (dividing_run h hfull m)).trans ?_
    change ((s.run m {}).tasks n).2.left f.blocks - _ ≤ _
    by_cases hm : m = n
    · subst hm
      obtain ⟨task, htasks, hleft⟩ := run_left h hfull hn
      rw [htasks, Function.update_self, List.count_cons_self]
      dsimp only
      omega
    · rw [List.count_cons_of_ne hm]
      cases hm' : f.spec m with
      | none =>
        have hidle : s.run m {} = s := by simp only [State.run, (h.idle m hm').1]
        rw [hidle]
      | some claim =>
        obtain ⟨task, htasks, -⟩ := run_left h hfull hm'
        rw [htasks, Function.update_of_ne (Ne.symm hm)]

theorem Dividing.done_of_left (h : Dividing f s) (hn : f.spec n = some own) {blocks : Nat}
    (hleft : (s.tasks n).2.left blocks = 0) : (s.tasks n).2 = .done := by
  have hstage := h.stage n own hn
  cases htask : (s.tasks n).2 with
  | done => rfl
  | booting | loading | releasing | claiming | claimed =>
    rw [htask] at hleft
    simp only [Task.left] at hleft
    omega
  | _ =>
    rw [htask] at hstage
    exact hstage.elim

end Fafo.Leases
