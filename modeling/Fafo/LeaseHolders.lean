import Fafo.Incarnations
import Fafo.Library.Runs

/-! Who may hold an epoch of a block's lease, and in which order epochs are created. -/
namespace Fafo.Leases

/-- No epoch of a block is held by two incarnations that are not fenced. -/
def Exclusive (s : State) : Prop :=
  ∀ n m held, (s.nodes n).fenced = false → (s.nodes m).fenced = false →
    held ∈ (s.nodes n).epochs → held ∈ (s.nodes m).epochs → n = m

/-- The epochs created for a block increase. -/
def Increasing (created : List (Nat × Nat)) : Prop :=
  created.Pairwise fun later earlier => later.1 = earlier.1 → earlier.2 < later.2

def LeasesSound (s : State) : Prop := Exclusive s ∧ Increasing s.created

/-- The lease that a task has just created and is about to hold. -/
def Task.claim : Task → Option (Nat × Nat)
  | claimed block epoch .. => some (block, epoch)
  | _ => none

/-- An incarnation holds an epoch, or its boot has just created it. -/
def Claims (s : State) (n : Nat) (held : Nat × Nat) : Prop :=
  held ∈ (s.nodes n).epochs ∨ ∃ i, (s.tasks i).1 = n ∧ (s.tasks i).2.claim = some held

/-- When a lease is re-adopted by its address, no other incarnation that is not fenced has it. -/
def Unclaimed (s : State) : Move → Prop
  | .run i _ => ∀ block epoch, (s.tasks i).2 = .adopting block epoch → ∀ m, m ≠ (s.tasks i).1 →
      (s.nodes m).fenced = false → ¬ Claims s m (block, epoch)
  | .crash _ => True

/-- The lease exists. -/
abbrev Written (s : State) (block epoch : Nat) : Prop := .lease block epoch ∈ s.store

/-- This was the block's highest epoch, and if it no longer is, the next one exists. -/
def Topmost (s : State) (block : Nat) (top : Option Nat) : Prop :=
  (∀ epoch, top = some epoch → Written s block epoch) ∧
    ((∀ epoch, Written s block epoch → epoch ≤ top.getD 0) ∨ Written s block (top.getD 0 + 1))

/-- What a task has read stays true. -/
def Task.Knows (s : State) : Task → Prop
  | loading _ todo keys leases => (∀ block, Topmost s block (maxEpoch keys block)) ∧
      todo.Nodup ∧ (∀ block ∈ todo, leases block = none) ∧
      ∀ block, block ∉ todo → Topmost s block ((leases block).map LeaseState.epoch)
  | releasing _ _ leases | claiming _ _ leases .. | claimed _ _ _ _ leases .. =>
    ∀ block, Topmost s block ((leases block).map LeaseState.epoch)
  | resolving block epoch _ | adopting block epoch => Written s block epoch
  | _ => True

structure Sound (s : State) : Prop where
  written : ∀ n held, Claims s n held → Written s held.1 held.2
  sole : ∀ n m held, (s.nodes n).fenced = false → (s.nodes m).fenced = false →
    Claims s n held → Claims s m held → n = m
  knows : ∀ i, (s.tasks i).2.Knows s
  created : ∀ held ∈ s.created, Written s held.1 held.2
  increasing : Increasing s.created

theorem Sound.leasesSound {s : State} (h : Sound s) : LeasesSound s :=
  ⟨fun n m held hn hm hheld hheld' => h.sole n m held hn hm (.inl hheld) (.inl hheld'),
    h.increasing⟩

variable {s s' : State}

/-- Leases are only ever added: nothing, or the epoch after the highest. -/
def Extends (s s' : State) : Prop :=
  (∀ b e, Written s' b e ↔ Written s b e) ∨
    ∃ block top, (∀ e, Written s block e → e ≤ top.getD 0) ∧
      (∀ e, top = some e → Written s block e) ∧
      ∀ b e, Written s' b e ↔ (b = block ∧ e = top.getD 0 + 1) ∨ Written s b e

theorem Extends.written (h : Extends s s') {b e : Nat} (hw : Written s b e) : Written s' b e := by
  rcases h with h | ⟨block, top, _, _, h⟩
  · exact (h b e).mpr hw
  · exact (h b e).mpr (.inr hw)

theorem Extends.topmost (h : Extends s s') {b : Nat} {top : Option Nat} (ht : Topmost s b top) :
    Topmost s' b top := by
  refine ⟨fun e he => h.written (ht.1 e he), ?_⟩
  rcases ht.2 with hmax | hnext
  · rcases h with h | ⟨block, top', hmax', hwritten, h⟩
    · exact .inl fun e he => hmax e ((h b e).mp he)
    · by_cases hb : b = block
      · -- both are the highest epoch now, so the one that is added comes right after
        subst hb
        right
        have heq : top.getD 0 = top'.getD 0 := by
          refine le_antisymm ?_ ?_
          · cases top with
            | none => exact Nat.zero_le _
            | some e => exact hmax' e (ht.1 e rfl)
          · cases top' with
            | none => exact Nat.zero_le _
            | some e => exact hmax e (hwritten e rfl)
        exact (h b _).mpr (.inl ⟨rfl, by rw [heq]⟩)
      · exact .inl fun e he => hmax e (((h b e).mp he).resolve_left fun hnew => hb hnew.1)
  · exact .inr (h.written hnext)

theorem Extends.knows (h : Extends s s') {task : Task} (ht : task.Knows s) : task.Knows s' := by
  cases task with
  | loading => exact ⟨fun b => h.topmost (ht.1 b), ht.2.1, ht.2.2.1,
      fun b hb => h.topmost (ht.2.2.2 b hb)⟩
  | releasing => exact fun b => h.topmost (ht b)
  | claiming => exact fun b => h.topmost (ht b)
  | claimed => exact fun b => h.topmost (ht b)
  | resolving => exact h.written ht
  | adopting => exact h.written ht
  | _ => trivial

theorem Extends.refl (hstore : s'.store = s.store) : Extends s s' :=
  .inl fun b e => by rw [Written, Written, hstore]

/-- The highest listed epoch. -/
theorem topmost_maxEpoch (s : State) (block : Nat) :
    Topmost s block (maxEpoch s.store.keys block) := by
  have hmem : ∀ e, e ∈ s.store.keys.filterMap (LeaseKey.epochOf block) ↔ Written s block e := by
    intro e
    rw [List.mem_filterMap]
    constructor
    · rintro ⟨key, hkey, he⟩
      cases key with
      | lease b e' =>
        simp only [LeaseKey.epochOf] at he
        split_ifs at he with hb
        cases he
        exact hb ▸ AList.mem_keys.mpr hkey
      | tombstone => cases he
      | other => cases he
    · exact fun hw => ⟨.lease block e, AList.mem_keys.mp hw, by simp [LeaseKey.epochOf]⟩
  refine ⟨fun e he => (hmem e).mp (List.max?_mem he), .inl fun e he => ?_⟩
  unfold maxEpoch
  rw [← hmem] at he
  cases hmax : (s.store.keys.filterMap (LeaseKey.epochOf block)).max? with
  | none =>
    rw [List.max?_eq_none_iff.mp hmax] at he
    cases he
  | some top => exact (List.max?_le_iff hmax).mp le_rfl e he

theorem maxEpoch_not_mem {keys : List LeaseKey} {block : Nat} (h : block ∉ blocksOf keys) :
    maxEpoch keys block = none := by
  unfold maxEpoch
  rw [List.max?_eq_none_iff, List.filterMap_eq_nil_iff]
  intro key hkey
  cases key with
  | lease b e =>
    refine if_neg fun hb => h (List.mem_dedup.mpr (List.mem_filterMap.mpr ⟨_, hkey, ?_⟩))
    rw [← hb]
    rfl
  | tombstone => rfl
  | other => rfl

/-- Nobody comes to claim anything. -/
theorem Sound.shrink (h : Sound s) (hext : Extends s s') (hcreated : s'.created = s.created)
    (hclaims : ∀ n held, Claims s' n held → Claims s n held)
    (hfenced : ∀ n, (s'.nodes n).fenced = false → (s.nodes n).fenced = false)
    (hknows : ∀ i, (s'.tasks i).2.Knows s') : Sound s' where
  written n held hc := hext.written (h.written n held (hclaims n held hc))
  sole n m held hn hm hc hc' :=
    h.sole n m held (hfenced n hn) (hfenced m hm) (hclaims n held hc) (hclaims m held hc')
  knows := hknows
  created held hmem := hext.written (h.created held (hcreated ▸ hmem))
  increasing := hcreated ▸ h.increasing

theorem become_tasks_self (s : State) (i : Nat) (task : Task) :
    (s.become i task).tasks i = ((s.tasks i).1, task) := Function.update_self ..

theorem become_tasks_ne (s : State) {i j : Nat} (hj : j ≠ i) (task : Task) :
    (s.become i task).tasks j = s.tasks j := Function.update_of_ne hj ..

/-- A task moves on to where it claims nothing new. -/
theorem Sound.become (h : Sound s) {i : Nat} {task : Task} (hclaim : task.claim = none)
    (hknows : task.Knows s) : Sound (s.become i task) := by
  have hext : Extends s (s.become i task) := .refl rfl
  refine h.shrink hext rfl (fun n held hc => ?_) (fun n hn => hn) fun j => ?_
  · refine hc.imp_right fun ⟨j, hj, hheld⟩ => ?_
    by_cases hji : j = i
    · subst hji
      rw [become_tasks_self] at hheld
      exact absurd (hclaim.symm.trans hheld) nofun
    · rw [become_tasks_ne s hji] at hj hheld
      exact ⟨j, hj, hheld⟩
  · by_cases hji : j = i
    · subst hji
      rw [become_tasks_self]
      exact hext.knows hknows
    · rw [become_tasks_ne s hji]
      exact hext.knows (h.knows j)

theorem Sound.done (h : Sound s) (i : Nat) : Sound (s.become i .done) := h.become rfl trivial

/-- The store after a create: the key, if it was absent, and nothing else. -/
theorem mem_create (key k : LeaseKey) (blob : LeaseBlob) (fault : Fault) :
    (k ∈ (s.create key blob fault).2.store ↔ k ∈ s.store ∨
      (k = key ∧ fault ≠ .failed)) := by
  have hadd : (k ∈ (if (s.store.lookup key).isNone then
      { s with store := s.store.insert key blob } else s).store) ↔ k ∈ s.store ∨ k = key := by
    split_ifs with habsent
    · rw [AList.mem_insert, or_comm]
    · have hkey : key ∈ s.store := by
        rw [← AList.lookup_isSome, Option.isSome_iff_ne_none]
        simpa using habsent
      exact ⟨.inl, fun hk => hk.elim id fun heq => heq ▸ hkey⟩
  cases fault with
  | none => simpa [State.create] using hadd
  | failed => simp [State.create]
  | lost => simpa [State.create] using hadd

theorem create_frame (key : LeaseKey) (blob : LeaseBlob) (fault : Fault) :
    (s.create key blob fault).2.nodes = s.nodes ∧ (s.create key blob fault).2.tasks = s.tasks ∧
      (s.create key blob fault).2.created = s.created := by
  have hif : ∀ {p : Prop} [Decidable p] {t : State}, t.nodes = s.nodes ∧ t.tasks = s.tasks ∧
      t.created = s.created → (if p then t else s).nodes = s.nodes ∧
        (if p then t else s).tasks = s.tasks ∧ (if p then t else s).created = s.created := by
    intro p _ t ht
    split_ifs
    · exact ht
    · exact ⟨rfl, rfl, rfl⟩
  cases fault with
  | none => exact hif ⟨rfl, rfl, rfl⟩
  | failed => exact ⟨rfl, rfl, rfl⟩
  | lost => exact hif ⟨rfl, rfl, rfl⟩

theorem extends_tombstone (block epoch : Nat) (fault : Fault) :
    Extends s (s.create (.tombstone block epoch) .released fault).2 := .inl fun b e => by
  rw [Written, Written, mem_create, or_iff_left]
  rintro ⟨heq, _⟩
  cases heq

theorem Sound.tombstone (h : Sound s) (block epoch : Nat) (fault : Fault) :
    Sound (s.create (.tombstone block epoch) .released fault).2 := by
  obtain ⟨hnodes, htasks, hcreated⟩ :=
    create_frame (s := s) (.tombstone block epoch) .released fault
  have hext := extends_tombstone (s := s) block epoch fault
  refine h.shrink hext hcreated (fun n held hc => ?_) (fun n hn => hnodes ▸ hn) fun j => ?_
  · unfold Claims at hc ⊢
    rwa [hnodes, htasks] at hc
  · rw [htasks]
    exact hext.knows (h.knows j)

/-- A task's node comes to hold at most what the task claimed, or what nobody else claims. -/
theorem Sound.setNode (h : Sound s) {i : Nat} {node : Incarnation} {task : Task}
    (hepochs : ∀ held ∈ node.epochs, Claims s (s.tasks i).1 held ∨
      (Written s held.1 held.2 ∧ ∀ m, m ≠ (s.tasks i).1 → (s.nodes m).fenced = false →
        ¬ Claims s m held))
    (hfenced : node.fenced = false → (s.nodes (s.tasks i).1).fenced = false)
    (hclaim : task.claim = none) (hknows : task.Knows s) :
    Sound ((s.setNode (s.tasks i).1 node).become i task) := by
  have hext : Extends s ((s.setNode (s.tasks i).1 node).become i task) := .refl rfl
  have hnode : ∀ n, ((s.setNode (s.tasks i).1 node).become i task).nodes n =
      if n = (s.tasks i).1 then node else s.nodes n := fun n => by
    by_cases hn : n = (s.tasks i).1
    · subst hn
      simp [State.become, State.setNode]
    · simp [State.become, State.setNode, hn]
  have hunfenced : ∀ n, (((s.setNode (s.tasks i).1 node).become i task).nodes n).fenced = false →
      (s.nodes n).fenced = false := fun n hn => by
    rw [hnode] at hn
    split_ifs at hn with hn'
    · exact hn' ▸ hfenced hn
    · exact hn
  have hclaims : ∀ n held, Claims ((s.setNode (s.tasks i).1 node).become i task) n held →
      Claims s n held ∨ (n = (s.tasks i).1 ∧ Written s held.1 held.2 ∧
        ∀ m, m ≠ (s.tasks i).1 → (s.nodes m).fenced = false → ¬ Claims s m held) := by
    rintro n held (hmem | ⟨j, hj, hheld⟩)
    · rw [hnode] at hmem
      split_ifs at hmem with hn
      · exact (hepochs held hmem).imp (fun hc => hn ▸ hc) fun hnew => ⟨hn, hnew⟩
      · exact .inl (.inl hmem)
    · by_cases hji : j = i
      · subst hji
        rw [become_tasks_self] at hheld
        exact absurd (hclaim.symm.trans hheld) nofun
      · rw [become_tasks_ne _ hji] at hj hheld
        exact .inl (.inr ⟨j, hj, hheld⟩)
  refine ⟨fun n held hc => ?_, fun n m held hn hm hc hc' => ?_, fun j => ?_, h.created,
    h.increasing⟩
  · rcases hclaims n held hc with hc | ⟨_, hw, _⟩
    · exact h.written n held hc
    · exact hw
  · replace hn := hunfenced n hn
    replace hm := hunfenced m hm
    rcases hclaims n held hc with hc | ⟨hni, _, hsole⟩
    · rcases hclaims m held hc' with hc' | ⟨hmi, _, hsole⟩
      · exact h.sole n m held hn hm hc hc'
      · by_contra hne
        exact hsole n (fun heq => hne (heq.trans hmi.symm)) hn hc
    · rcases hclaims m held hc' with hc' | ⟨hmi, _, _⟩
      · by_contra hne
        exact hsole m (fun heq => hne (hni.trans heq.symm)) hm hc'
      · exact hni.trans hmi.symm
  · by_cases hji : j = i
    · subst hji
      rw [become_tasks_self]
      exact hext.knows hknows
    · rw [become_tasks_ne _ hji]
      exact hext.knows (h.knows j)

theorem mem_hold {n : Incarnation} {block epoch : Nat} {held : Nat × Nat}
    (h : held ∈ (n.hold block epoch).epochs) : held = (block, epoch) ∨ held ∈ n.epochs := by
  rcases List.mem_cons.mp h with heq | hmem
  · exact .inl heq
  · exact .inr (List.mem_filter.mp hmem).1

theorem sound_load (h : Sound s) {i : Nat} {spec : ClaimSpec} {todo : List Nat}
    {keys : List LeaseKey} {leases : LeaseMap} (e : Env)
    (hknows : (Task.loading spec todo keys leases).Knows s) :
    Sound (s.load i spec todo keys leases e) := by
  obtain ⟨hkeys, hnodup, hnone, hleases⟩ := hknows
  unfold State.load
  cases todo with
  | nil => exact h.become rfl fun b => hleases b nofun
  | cons block todo =>
    obtain ⟨hblock, hnodup⟩ := List.nodup_cons.mp hnodup
    dsimp only
    -- the next block is done once its lease is what the keys say
    have hread : ∀ leases' : LeaseMap, (∀ b, b ≠ block → leases' b = leases b) →
        Topmost s block ((leases' block).map LeaseState.epoch) →
        Sound (s.become i (.loading spec todo keys leases')) := by
      refine fun leases' hsame htop => h.become rfl ⟨hkeys, hnodup, fun b hb => ?_, fun b hb => ?_⟩
      · rw [hsame b fun heq => hblock (heq ▸ hb)]
        exact hnone b (.tail _ hb)
      · by_cases hbb : b = block
        · exact hbb ▸ htop
        · rw [hsame b hbb]
          exact hleases b fun hmem => (List.mem_cons.mp hmem).elim hbb hb
    have htop := hkeys block
    cases hmax : maxEpoch keys block with
    | none =>
      rw [hmax] at htop
      exact hread leases (fun _ _ => rfl) (by rwa [hnone block List.mem_cons_self])
    | some epoch =>
      rw [hmax] at htop
      dsimp only
      split_ifs
      · exact h.done i
      · cases hlookup : s.store.lookup (.lease block epoch) with
        | none =>
          exact absurd (htop.1 epoch rfl) (AList.lookup_eq_none.mp hlookup)
        | some blob =>
          cases blob with
          | lease addr =>
            exact hread _ (fun b hb => Function.update_of_ne hb ..) (by
              rw [Function.update_self]
              exact htop)
          | released => exact h.done i
          | garbled => exact h.done i

theorem sound_release (h : Sound s) {i : Nat} {spec : ClaimSpec} {todo : List Nat}
    {leases : LeaseMap} (e : Env) (hknows : (Task.releasing spec todo leases).Knows s) :
    Sound (s.release i spec todo leases e) := by
  unfold State.release
  cases todo with
  | nil => exact h.become rfl hknows
  | cons block todo =>
    dsimp only
    cases hlease : leases block with
    | none => exact h.become rfl hknows
    | some lease =>
      dsimp only
      split_ifs
      · refine (h.tombstone block lease.epoch e.fault).become rfl fun b => ?_
        have htop := (extends_tombstone block lease.epoch e.fault).topmost (hknows b)
        by_cases hb : b = block
        · subst hb
          rw [hlease] at htop
          rw [Function.update_self]
          exact htop
        · rw [Function.update_of_ne hb]
          exact htop
      · exact h.become rfl hknows

/-- The create of the epoch after the highest either adds it, or changes nothing. -/
theorem createLease_spec (block epoch addr : Nat) (fault : Fault) :
    (s.createLease block epoch addr fault).2.nodes = s.nodes ∧
    (s.createLease block epoch addr fault).2.tasks = s.tasks ∧
    ((¬ Written s block epoch ∧
      (∀ b e, Written (s.createLease block epoch addr fault).2 b e ↔
        (b = block ∧ e = epoch) ∨ Written s b e) ∧
      (s.createLease block epoch addr fault).2.created = (block, epoch) :: s.created) ∨
    ((s.createLease block epoch addr fault).1 ≠ .ok true ∧
      (∀ b e, Written (s.createLease block epoch addr fault).2 b e ↔ Written s b e) ∧
      (s.createLease block epoch addr fault).2.created = s.created)) := by
  obtain ⟨hnodes, htasks, hcreated⟩ :=
    create_frame (s := s) (.lease block epoch) (.lease addr) fault
  have hmem := fun b e => mem_create (s := s) (.lease block epoch) (.lease b e) (.lease addr) fault
  unfold State.createLease
  split_ifs with hnew
  · have habsent : ¬ Written s block epoch := by
      rw [Written, ← AList.lookup_eq_none]
      simpa using hnew.1
    refine ⟨hnodes, htasks, .inl ⟨habsent, fun b e => ?_, rfl⟩⟩
    change .lease b e ∈ (s.create _ _ fault).2.store ↔ _
    rw [hmem, or_comm]
    simp [hnew.2]
  · refine ⟨hnodes, htasks, .inr ⟨?_, fun b e => ?_, hcreated⟩⟩
    · unfold State.create
      cases fault with
      | none =>
        intro heq
        exact hnew ⟨by simpa using heq, nofun⟩
      | failed => exact nofun
      | lost => exact nofun
    · change .lease b e ∈ (s.create _ _ fault).2.store ↔ _
      rw [hmem, or_iff_left_of_imp]
      rintro ⟨heq, hfault⟩
      cases heq
      by_contra hnone
      exact hnew ⟨by simpa using AList.lookup_eq_none.mpr hnone, hfault⟩

theorem Sound.createLease (h : Sound s) {block : Nat} {top : Option Nat}
    (htop : Topmost s block top) (addr : Nat) (fault : Fault) :
    Sound (s.createLease block (top.getD 0 + 1) addr fault).2 ∧
      Extends s (s.createLease block (top.getD 0 + 1) addr fault).2 := by
  obtain ⟨hnodes, htasks, ⟨habsent, hwritten, hcreated⟩ | ⟨_, hwritten, hcreated⟩⟩ :=
    createLease_spec (s := s) block (top.getD 0 + 1) addr fault
  · have hmax := htop.2.resolve_right habsent
    have hext : Extends s (s.createLease block (top.getD 0 + 1) addr fault).2 :=
      .inr ⟨block, top, hmax, htop.1, hwritten⟩
    refine ⟨⟨fun n held hc => ?_, fun n m held hn hm hc hc' => ?_, fun i => ?_, ?_, ?_⟩, hext⟩
    · unfold Claims at hc
      rw [hnodes, htasks] at hc
      exact hext.written (h.written n held hc)
    · unfold Claims at hc hc'
      rw [hnodes] at hn hm
      rw [hnodes, htasks] at hc hc'
      exact h.sole n m held hn hm hc hc'
    · rw [htasks]
      exact hext.knows (h.knows i)
    · rw [hcreated]
      intro held hmem
      rcases List.mem_cons.mp hmem with rfl | hmem
      · exact (hwritten _ _).mpr (.inl ⟨rfl, rfl⟩)
      · exact hext.written (h.created held hmem)
    · rw [hcreated]
      refine List.pairwise_cons.mpr ⟨fun held hmem hblock => ?_, h.increasing⟩
      obtain ⟨b, e⟩ := held
      dsimp only at hblock ⊢
      subst hblock
      exact Nat.lt_succ_of_le (hmax e (h.created (block, e) hmem))
  · have hext : Extends s (s.createLease block (top.getD 0 + 1) addr fault).2 := .inl hwritten
    refine ⟨h.shrink hext hcreated (fun n held hc => ?_) (fun n hn => hnodes ▸ hn) fun i => ?_,
      hext⟩
    · unfold Claims at hc ⊢
      rwa [hnodes, htasks] at hc
    · rw [htasks]
      exact hext.knows (h.knows i)

/-- A boot that has created a lease is the only one to claim it. -/
theorem Sound.claimed (h : Sound s) {i block epoch : Nat} {task : Task}
    (hclaim : task.claim = some (block, epoch)) (hknows : task.Knows s)
    (hwritten : Written s block epoch) (hsole : ∀ n, ¬ Claims s n (block, epoch)) :
    Sound (s.become i task) := by
  have hext : Extends s (s.become i task) := .refl rfl
  have hclaims : ∀ n held, Claims (s.become i task) n held →
      Claims s n held ∨ n = (s.tasks i).1 ∧ held = (block, epoch) := by
    rintro n held (hmem | ⟨j, hj, hheld⟩)
    · exact .inl (.inl hmem)
    · by_cases hji : j = i
      · subst hji
        rw [become_tasks_self] at hj hheld
        rw [hclaim] at hheld
        cases hheld
        exact .inr ⟨hj.symm, rfl⟩
      · rw [become_tasks_ne s hji] at hj hheld
        exact .inl (.inr ⟨j, hj, hheld⟩)
  refine ⟨fun n held hc => ?_, fun n m held hn hm hc hc' => ?_, fun j => ?_, h.created,
    h.increasing⟩
  · rcases hclaims n held hc with hc | ⟨_, rfl⟩
    · exact h.written n held hc
    · exact hwritten
  · rcases hclaims n held hc with hc | ⟨rfl, rfl⟩
    · rcases hclaims m held hc' with hc' | ⟨_, rfl⟩
      · exact h.sole n m held hn hm hc hc'
      · exact absurd hc (hsole n)
    · rcases hclaims m _ hc' with hc' | ⟨rfl, _⟩
      · exact absurd hc' (hsole m)
      · rfl
  · by_cases hji : j = i
    · subst hji
      rw [become_tasks_self]
      exact hext.knows hknows
    · rw [become_tasks_ne s hji]
      exact hext.knows (h.knows j)

theorem sound_claim (h : Sound s) {i : Nat} {spec : ClaimSpec} {todo : List Nat}
    {leases : LeaseMap} {alive : Nat → Option Bool} {fresh : Nat} (e : Env)
    (hknows : ∀ block, Topmost s block ((leases block).map LeaseState.epoch)) :
    Sound (s.claim i spec todo leases alive fresh e) := by
  unfold State.claim
  cases todo with
  | nil => exact h.done i
  | cons block todo =>
    dsimp only
    split_ifs
    · exact h.become rfl hknows
    · exact h.become rfl hknows
    · have hs' := h.createLease (hknows block) (s.nodes (s.tasks i).1).addr e.fault
      have hspec := createLease_spec (s := s) block
        (((leases block).map LeaseState.epoch).getD 0 + 1) (s.nodes (s.tasks i).1).addr e.fault
      -- the record of the lease's creation, with the answer that the boot gets
      generalize s.createLease block (((leases block).map LeaseState.epoch).getD 0 + 1)
        (s.nodes (s.tasks i).1).addr e.fault = result at hs' hspec ⊢
      obtain ⟨r, s'⟩ := result
      obtain ⟨hs', hext⟩ := hs'
      obtain ⟨hnodes, htasks, hnew⟩ := hspec
      dsimp only at hs' hext hnodes htasks hnew ⊢
      have hknows' := fun b => hext.topmost (hknows b)
      cases r with
      | error err => exact hs'.done i
      | ok won =>
        cases won with
        | false => exact hs'.become rfl hknows'
        | true =>
          obtain ⟨habsent, hwritten, _⟩ | ⟨hlost, _⟩ := hnew
          · refine hs'.claimed rfl hknows' ((hwritten _ _).mpr (.inl ⟨rfl, rfl⟩)) fun n hc => ?_
            unfold Claims at hc
            rw [hnodes, htasks] at hc
            exact habsent (h.written n _ hc)
          · exact absurd rfl hlost

/-- `run` on any task; only a re-adoption relies on the guard. -/
theorem sound_run (h : Sound s) {i : Nat} {e : Env} (hguard : Unclaimed s (.run i e)) :
    Sound (s.run i e) := by
  have hknows := h.knows i
  unfold State.run
  cases htask : (s.tasks i).2 with
  | booting spec =>
    dsimp only
    split_ifs
    · exact h.done i
    · refine h.become rfl ⟨topmost_maxEpoch s, List.nodup_dedup _, fun _ _ => rfl, fun b hb => ?_⟩
      have htop := topmost_maxEpoch s b
      rwa [maxEpoch_not_mem hb] at htop
  | loading spec todo keys leases => exact sound_load h e (htask ▸ hknows)
  | releasing spec todo leases => exact sound_release h e (htask ▸ hknows)
  | claiming spec todo leases alive fresh =>
    rw [htask] at hknows
    exact sound_claim h e hknows
  | claimed block epoch spec todo leases alive fresh =>
    rw [htask] at hknows
    refine h.setNode (fun held hmem => .inl ?_) (fun hf => hf) rfl hknows
    rcases mem_hold hmem with rfl | hmem
    · exact .inr ⟨i, rfl, by rw [htask]; rfl⟩
    · exact .inl hmem
  | touching block =>
    dsimp only
    split_ifs
    · exact h.done i
    · cases hmax : maxEpoch s.store.keys block with
      | none => exact h.done i
      | some epoch => exact h.become rfl ((topmost_maxEpoch s block).1 epoch hmax)
  | resolving block epoch released =>
    rw [htask] at hknows
    dsimp only
    split_ifs
    · exact h.done i
    · cases s.store.lookup (.lease block epoch) with
      | none => exact h.done i
      | some blob =>
        cases blob with
        | lease addr =>
          dsimp only
          split_ifs
          · exact h.become rfl hknows
          · exact h.done i
        | released => exact h.done i
        | garbled => exact h.done i
  | adopting block epoch =>
    rw [htask] at hknows
    refine h.setNode (fun held hmem => ?_) (fun hf => hf) rfl trivial
    rcases mem_hold hmem with rfl | hmem
    · exact .inr ⟨hknows, hguard block epoch htask⟩
    · exact .inl (.inl hmem)
  | guarding => exact h.become rfl trivial
  | verifying epochs =>
    dsimp only
    split_ifs
    · exact h.done i
    · exact h.setNode (fun held hmem => .inl (.inl hmem)) nofun rfl trivial
  | stopping => exact h.become rfl trivial
  | tombstoning todo =>
    cases todo with
    | nil => exact h.setNode (fun held hmem => nomatch hmem) (fun hf => hf) rfl trivial
    | cons held todo => exact (h.tombstone held.1 held.2 e.fault).become rfl trivial
  | done => exact h

theorem sound_step (h : Sound s) {move : Move} (hguard : Unclaimed s move) :
    Sound (s.step move) := by
  cases move with
  | run i e => exact sound_run h hguard
  | crash n =>
    have hext : Extends s (s.step (.crash n)) := .refl rfl
    have hnode : ∀ m, ((s.step (.crash n)).nodes m).epochs = (s.nodes m).epochs ∧
        (((s.step (.crash n)).nodes m).fenced = false → (s.nodes m).fenced = false) := by
      intro m
      by_cases hm : m = n
      · subst hm
        simp [State.step, State.setNode]
      · simp [State.step, State.setNode, hm]
    refine h.shrink hext rfl (fun m held hc => ?_) (fun m => (hnode m).2) fun i =>
      hext.knows (h.knows i)
    unfold Claims at hc ⊢
    rwa [(hnode m).1] at hc

/-- Every incarnation about to start, over whatever leases there are. -/
def start (store : Blobs LeaseKey LeaseBlob) (addrs : Nat → Nat) (tasks : Nat → Nat × Task) :
    State where
  store
  nodes n := { addr := addrs n }
  tasks

theorem sound_initial (store : Blobs LeaseKey LeaseBlob) (addrs : Nat → Nat)
    {tasks : Nat → Nat × Task} (hfresh : ∀ i, (tasks i).2.Fresh) :
    Sound (start store addrs tasks) := by
  have hclaims : ∀ n held, ¬ Claims (start store addrs tasks) n held := by
    rintro n held (hmem | ⟨i, _, hheld⟩)
    · cases hmem
    · have hi := hfresh i
      change (tasks i).2.claim = _ at hheld
      cases htask : (tasks i).2 with
      | claimed =>
        rw [htask] at hi
        exact hi
      | _ =>
        rw [htask] at hheld
        cases hheld
  refine ⟨fun n held hc => absurd hc (hclaims n held),
    fun n m held _ _ hc _ => absurd hc (hclaims n held), fun i => ?_, nofun, .nil⟩
  have hi := hfresh i
  change (tasks i).2.Knows _
  cases htask : (tasks i).2 with
  | booting => trivial
  | touching => trivial
  | guarding => trivial
  | stopping => trivial
  | _ =>
    rw [htask] at hi
    exact hi.elim

/-- In every run that re-adopts a lease only when nobody else claims it, no two incarnations that
are not fenced hold one epoch, and every block's epochs increase. -/
theorem lease_exclusive (store : Blobs LeaseKey LeaseBlob) (addrs : Nat → Nat)
    (tasks : Nat → Nat × Task) (hfresh : ∀ i, (tasks i).2.Fresh) (moves : List Move)
    (hguard : Runs.Guarded State.step Unclaimed (start store addrs tasks) moves) :
    Runs.Throughout State.step LeasesSound (start store addrs tasks) moves :=
  Runs.Guarded.throughout (I := Sound) (fun _ _ h hguard => sound_step h hguard)
    (fun _ h => h.leasesSound)
    (sound_initial store addrs hfresh) hguard

/-- Two incarnations with one address boot for blocks 0 and 1; each also gets a request for a worker
of block 0. -/
def twins : Nat → Nat × Task
  | 0 => (0, .booting ⟨[0], 1⟩)
  | 1 => (1, .booting ⟨[0, 1], 2⟩)
  | 2 => (0, .touching 0)
  | 3 => (1, .touching 0)
  | _ => (0, .guarding)

theorem twins_fresh (i : Nat) : (twins i).2.Fresh := by
  match i with
  | 0 | 1 | 2 | 3 => trivial
  | _ + 4 => trivial

/-- The answer to node 0's create is lost, and its boot ends; the request re-adopts the lease. -/
def lostAnswer : List Move :=
  [.run 0 {}, .run 0 {}, .run 0 {}, .run 0 { fault := .lost }, .run 2 {}, .run 2 {}, .run 2 {}]

theorem lease_exclusive_lostAnswer :
    Runs.Throughout State.step LeasesSound (start ∅ (fun _ => 5) twins) lostAnswer := by
  refine lease_exclusive ∅ (fun _ => 5) twins twins_fresh lostAnswer
    ⟨nofun, nofun, nofun, nofun, nofun, nofun, ?_, trivial⟩
  rintro block epoch ⟨⟩ m hm _ (hmem | ⟨i, rfl, hheld⟩)
  · exact absurd hmem List.not_mem_nil
  · match i with
    | 0 | 1 | 2 | 3 => cases hheld
    | _ + 4 => cases hheld

/-- Node 0 creates the lease after node 1 has listed none; node 1's request re-adopts it. -/
def sharedAddress : List Move :=
  [.run 0 {}, .run 1 {}, .run 0 {}, .run 0 {}, .run 0 {}, .run 0 {},
    .run 1 {}, .run 1 {}, .run 1 {}, .run 1 {}, .run 1 {}, .run 3 {}, .run 3 {}, .run 3 {}]

theorem epoch_held_twice :
    ¬ Runs.Throughout State.step LeasesSound (start ∅ (fun _ => 5) twins) sharedAddress := by
  intro h
  have hone := h.last.1 0 1 (0, 1) rfl rfl (by decide) (by decide)
  cases hone

end Fafo.Leases
