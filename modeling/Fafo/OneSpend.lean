import Fafo.Titles

/-! One renunciation, one spend, in every run whose deeds are acted on only while they stand. -/
namespace Fafo.Ownership

variable {ι : Type} {layout : Layout ι} {s s' : State ι} {w : Nat} {o : ι}

theorem Recorded.same {T : Title} (h : Recorded layout s o T)
    (hmemory : ∀ v, (s'.workers v).memory = (s.workers v).memory)
    (hcheckpoints : s'.checkpoints = s.checkpoints) (hhistory : s'.history = s.history) :
    Recorded layout s' o T :=
  h.frame (w := 0) ⟨fun v _ => by rw [hmemory], fun v _ => by rw [hmemory],
    fun _ _ => by rw [hcheckpoints]⟩ (by rw [hmemory]) (by rw [hmemory])
    (.inl (by rw [hcheckpoints])) fun _ _ => by rw [hhistory]

/-- Messages and chases come and go. -/
theorem Sound.still (h : Sound layout s) (hworkers : s'.workers = s.workers)
    (hcheckpoints : s'.checkpoints = s.checkpoints) (hhistory : s'.history = s.history) :
    Sound layout s' where
  recorded p := by
    obtain ⟨T, hT⟩ := h.recorded p
    exact ⟨T, hT.same (fun v => by rw [hworkers]) hcheckpoints hhistory⟩
  poised v p := hworkers ▸ h.poised v p
  ascending := hhistory ▸ h.ascending

theorem poised_update {worker : Worker ι} (h : Sound layout s)
    (hworker : ∀ p, Poised w worker p) (v : Nat) (p : ι) :
    Poised v (Function.update s.workers w worker v) p := by
  by_cases hv : v = w
  · rw [hv, Function.update_self]
    exact hworker p
  · rw [Function.update_of_ne hv]
    exact h.poised v p

/-- A worker moves on without touching its memory. -/
theorem Sound.update (h : Sound layout s) {worker : Worker ι}
    (hmemory : worker.memory = (s.workers w).memory) (hworker : ∀ p, Poised w worker p) :
    Sound layout (s.update w worker) where
  recorded p := by
    obtain ⟨T, hT⟩ := h.recorded p
    refine ⟨T, hT.same (fun v => ?_) rfl rfl⟩
    by_cases hv : v = w
    · simp [State.update, hv, hmemory]
    · simp [State.update, Function.update_of_ne hv]
  poised := poised_update h hworker
  ascending := h.ascending

theorem Sound.goTo (h : Sound layout s) {await : Await ι}
    (hawait : ∀ p, Poised w { s.workers w with await } p) : Sound layout (s.goTo w await) :=
  h.update rfl hawait

theorem Sound.goToIdle (h : Sound layout s) : Sound layout (s.goTo w .idle) :=
  h.goTo fun p => ⟨(h.poised w p).queued, (h.poised w p).returning, trivial⟩

theorem Sound.checkpoint (h : Sound layout s) {fault : Fault} :
    Sound layout (s.checkpoint w fault) := by
  unfold State.checkpoint
  split_ifs
  · exact h
  · refine ⟨fun p => ?_, h.poised, h.ascending⟩
    obtain ⟨T, hT⟩ := h.recorded p
    refine ⟨T, hT.frame (w := w) ⟨fun _ _ => rfl, fun _ _ => rfl, fun v hv => ?_⟩ rfl rfl
      (.inr ⟨_, AList.lookup_insert _, rfl, rfl⟩) fun _ _ => .rfl⟩
    exact AList.lookup_insert_ne hv

/-- A worker's update and an insertion of its checkpoint reach no other worker. -/
theorem elsewhere_of {worker : Worker ι}
    (hworkers : s'.workers = Function.update s.workers w worker)
    (hcheckpoints : ∀ v, v ≠ w → s'.checkpoints.lookup v = s.checkpoints.lookup v) (p : ι) :
    Elsewhere s s' w p :=
  ⟨fun v hv => by rw [hworkers, Function.update_of_ne hv],
    fun v hv => by rw [hworkers, Function.update_of_ne hv], hcheckpoints⟩

theorem Sound.known_held (h : Sound layout s) {g : Nat}
    (hheld : (s.workers w).memory.owned o = some g) : known (s.workers w).memory o = some g := by
  obtain ⟨T, hT⟩ := h.recorded o
  exact known_of_owned hheld (hT.transit_of_owned w (by simp [hheld]))

theorem departure_generation (hysteresis v : Nat) (m : Option Meta) (g now : Nat) :
    (departure hysteresis v m g now).generation = g := by
  cases m <;> rfl

variable [DecidableEq ι]

theorem installed_memory (worker : Worker ι) (tm : TransferMeta) (after : After) (e : Env) :
    (worker.installed w o tm after e).memory = hold worker.memory o tm.generation := by
  cases after <;> rfl

theorem Poised.installed {worker : Worker ι} {tm : TransferMeta} {after : After} {e : Env}
    (hafter : ∀ taker reset, after = .queueTake taker reset → taker ≠ w) {p : ι}
    (h : Poised w worker p) : Poised w (worker.installed w o tm after e) p := by
  have howned : worker.memory.owned p ≠ none ∨ p = o →
      (worker.installed w o tm after e).memory.owned p ≠ none := by
    intro hp
    rw [installed_memory]
    by_cases hpo : p = o
    · simp [hpo]
    · rw [(hold_of_ne _ hpo).1]
      exact hp.resolve_right hpo
  refine ⟨fun taker htaker => ?_, fun m home hm hhome => ?_, ?_⟩
  · cases after with
    | nothing => exact ⟨(h.queued taker htaker).1, howned (.inl (h.queued taker htaker).2)⟩
    | queueTake t reset =>
      by_cases hpo : p = o
      · subst hpo
        have hmem : taker ∈ worker.queues p ++ [t] := by
          simpa [Worker.installed] using htaker
        refine ⟨?_, howned (.inr rfl)⟩
        rcases List.mem_append.mp hmem with hmem | hmem
        · exact (h.queued taker hmem).1
        · rw [List.mem_singleton.mp hmem]
          exact hafter t reset rfl
      · have hmem : taker ∈ worker.queues p := by
          simpa [Worker.installed, Function.update_of_ne hpo] using htaker
        exact ⟨(h.queued taker hmem).1, howned (.inl (h.queued taker hmem).2)⟩
  · by_cases hpo : p = o
    · exact howned (.inr hpo)
    · refine howned (.inl (h.returning m home ?_ hhome))
      cases after <;> simpa [Worker.installed, Function.update_of_ne hpo] using hm
  · cases after <;> trivial

theorem install_workers (tm : TransferMeta) (after : After) (e : Env) :
    (s.install w o tm after e).workers =
      Function.update s.workers w ((s.workers w).installed w o tm after e) := by
  unfold State.install State.checkpoint
  split_ifs <;> rfl

theorem install_history (tm : TransferMeta) (after : After) (e : Env) :
    (s.install w o tm after e).history = .admitted w o tm.generation :: s.history := by
  unfold State.install State.checkpoint
  split_ifs <;> rfl

theorem install_checkpoints (tm : TransferMeta) (after : After) (e : Env) :
    (s.install w o tm after e).checkpoints = s.checkpoints ∨
      (s.install w o tm after e).checkpoints =
        s.checkpoints.insert w (hold (s.workers w).memory o tm.generation) := by
  unfold State.install State.checkpoint
  split_ifs
  · exact .inl rfl
  · right
    simp only [State.update, Function.update_self, installed_memory]

/-- An open title taken at a generation that is news to the worker. -/
theorem Sound.install (h : Sound layout s) {tm : TransferMeta} {after : After} {e : Env} {T : Title}
    (hT : Recorded layout s o T) (hopen : T.Open layout o w tm.generation)
    (hnew : ∀ k, known (s.workers w).memory o = some k → k < tm.generation)
    (hpos : 1 ≤ tm.generation)
    (hafter : ∀ taker reset, after = .queueTake taker reset → taker ≠ w) :
    Sound layout (s.install w o tm after e) := by
  have hworkers := install_workers (s := s) (w := w) (o := o) tm after e
  have hmemory : ((s.install w o tm after e).workers w).memory =
      hold (s.workers w).memory o tm.generation := by
    rw [hworkers, Function.update_self, installed_memory]
  have hlookup : ∀ v, v ≠ w →
      (s.install w o tm after e).checkpoints.lookup v = s.checkpoints.lookup v := by
    intro v hv
    rcases install_checkpoints (s := s) (w := w) (o := o) tm after e with heq | heq
    · rw [heq]
    · rw [heq, AList.lookup_insert_ne hv]
  have hwrite : (s.install w o tm after e).checkpoints.lookup w = s.checkpoints.lookup w ∨
      (s.install w o tm after e).checkpoints.lookup w =
        some (hold (s.workers w).memory o tm.generation) := by
    rcases install_checkpoints (s := s) (w := w) (o := o) tm after e with heq | heq
    · exact .inl (by rw [heq])
    · exact .inr (by rw [heq, AList.lookup_insert])
  refine ⟨fun p => ?_, ?_, ?_⟩
  · by_cases hp : p = o
    · subst hp
      refine ⟨_, hT.hold (elsewhere_of hworkers hlookup p) hopen hnew hpos (by simp [hmemory])
        (by simp [hmemory]) (hwrite.imp_right fun heq => ⟨_, heq, by simp⟩) fun e' _ => ?_⟩
      rw [install_history, List.mem_cons]
    · obtain ⟨T', hT'⟩ := h.recorded p
      obtain ⟨ho, ht⟩ := hold_of_ne (g := tm.generation) (s.workers w).memory hp
      refine ⟨T', hT'.frame (elsewhere_of hworkers hlookup p) (by rw [hmemory, ho])
        (by rw [hmemory, ht]) (hwrite.imp_right fun heq => ⟨_, heq, ho, ht⟩) fun e' he' => ?_⟩
      rw [install_history, List.mem_cons, or_iff_right]
      rintro rfl
      exact hp he'.symm
  · rw [hworkers]
    exact poised_update h fun p => (h.poised w p).installed hafter
  · rw [install_history]
    refine List.pairwise_cons.mpr ⟨?_, h.ascending⟩
    rintro earlier hmem _ _ _ ⟨⟩ rfl rfl
    obtain ⟨k, hk, hle⟩ := hT.remembered earlier hmem rfl
    exact hle.trans_lt (hnew k hk)

/-- What a renounced object leaves at its worker, once its queue is cleared. -/
theorem Poised.renounced {worker worker' : Worker ι} {d g : Nat}
    (hmemory : worker'.memory = renounce worker.memory o d g)
    (hmetas : worker'.metas = Function.update worker.metas o none)
    (hqueue : worker'.queues o = []) (hqueues : ∀ p, p ≠ o → worker'.queues p = worker.queues p)
    (hawait : worker'.await = .idle ∨
      ∃ tm, worker'.await = .granting o d tm ∧ tm.generation = g) {p : ι}
    (h : Poised w worker p) : Poised w worker' p := by
  refine ⟨fun taker htaker => ?_, fun m home hm hhome => ?_, ?_⟩
  · by_cases hp : p = o
    · rw [hp, hqueue] at htaker
      cases htaker
    · rw [hqueues p hp] at htaker
      rw [hmemory, (renounce_of_ne _ hp).1]
      exact h.queued taker htaker
  · by_cases hp : p = o
    · rw [hp, hmetas, Function.update_self] at hm
      cases hm
    · rw [hmetas, Function.update_of_ne hp] at hm
      rw [hmemory, (renounce_of_ne _ hp).1]
      exact h.returning m home hm hhome
  · rcases hawait with heq | ⟨tm, heq, rfl⟩
    · rw [heq]
      trivial
    · rw [heq]
      rintro rfl
      simp [hmemory]

/-- A held object is renounced: memory and checkpoint say so, and the record. -/
theorem Sound.give (h : Sound layout s) {d g : Nat} (hd : d ≠ w)
    (hheld : (s.workers w).memory.owned o = some g) {worker : Worker ι}
    (hmemory : worker.memory = renounce (s.workers w).memory o d (g + 1))
    (hworkers : s'.workers = Function.update s.workers w worker)
    (hcheckpoints : s'.checkpoints = s.checkpoints.insert w worker.memory)
    (hhistory : s'.history = .released w o (g + 1) :: s.history)
    (hpoised : ∀ p, Poised w worker p) : Sound layout s' := by
  have hself : (s'.workers w).memory = renounce (s.workers w).memory o d (g + 1) := by
    rw [hworkers, Function.update_self, hmemory]
  have hlookup : s'.checkpoints.lookup w = some (renounce (s.workers w).memory o d (g + 1)) := by
    rw [hcheckpoints, AList.lookup_insert, hmemory]
  have helse := elsewhere_of hworkers fun v hv => by rw [hcheckpoints, AList.lookup_insert_ne hv]
  refine ⟨fun p => ?_, ?_, ?_⟩
  · obtain ⟨T, hT⟩ := h.recorded p
    by_cases hp : p = o
    · subst hp
      obtain rfl := (hT.owned_iff w g).mp hheld
      refine ⟨_, hT.renounce (helse p) hd (by simp [hself]) (by simp [hself])
        ⟨_, hlookup, by simp, by simp⟩ fun e _ => ?_⟩
      rw [hhistory, List.mem_cons]
    · obtain ⟨ho, ht⟩ := renounce_of_ne (d := d) (g := g + 1) (s.workers w).memory hp
      refine ⟨T, hT.frame (helse p) (by rw [hself, ho]) (by rw [hself, ht])
        (.inr ⟨_, hlookup, ho, ht⟩) fun e he => ?_⟩
      rw [hhistory, List.mem_cons, or_iff_right]
      rintro rfl
      exact hp he.symm
  · rw [hworkers]
    exact poised_update h hpoised
  · rw [hhistory]
    exact List.pairwise_cons.mpr ⟨fun _ _ _ _ _ heq => (nomatch heq), h.ascending⟩

/-- The renunciation took effect and reported an error: the worker holds on. -/
theorem Sound.lose (h : Sound layout s) {d g : Nat}
    (hheld : (s.workers w).memory.owned o = some g) :
    Sound layout { s with
      checkpoints := s.checkpoints.insert w (renounce (s.workers w).memory o d (g + 1)) } := by
  refine ⟨fun p => ?_, h.poised, h.ascending⟩
  have helse : Elsewhere s { s with
      checkpoints := s.checkpoints.insert w (renounce (s.workers w).memory o d (g + 1)) } w p :=
    ⟨fun _ _ => rfl, fun _ _ => rfl, fun v hv => AList.lookup_insert_ne hv⟩
  obtain ⟨T, hT⟩ := h.recorded p
  by_cases hp : p = o
  · subst hp
    obtain rfl := (hT.owned_iff w g).mp hheld
    exact ⟨_, hT.lose helse rfl rfl ⟨_, AList.lookup_insert _, renounce_transit⟩ rfl⟩
  · obtain ⟨ho, ht⟩ := renounce_of_ne (d := d) (g := g + 1) (s.workers w).memory hp
    exact ⟨T, hT.frame helse rfl rfl (.inr ⟨_, AList.lookup_insert _, ho, ht⟩) fun _ _ => .rfl⟩

/-- `grant` and the return home: the object goes, or stays as it was. -/
theorem Sound.grant (h : Sound layout s) {e : Env} : Sound layout (s.grant layout w o e) := by
  unfold State.grant
  cases hqueue : (s.workers w).queues o with
  | nil => exact h
  | cons taker rest =>
    obtain ⟨hne, howned⟩ := (h.poised w o).queued taker (by simp [hqueue])
    obtain ⟨g, hheld⟩ := Option.ne_none_iff_exists'.mp howned
    have hknown := h.known_held hheld
    have hcleared : ∀ p, Poised w { s.workers w with
        queues := Function.update (s.workers w).queues o [] } p := by
      intro p
      refine ⟨fun t ht => (h.poised w p).queued t ?_, (h.poised w p).returning,
        (h.poised w p).awaiting⟩
      by_cases hp : p = o
      · subst hp
        simp at ht
      · simpa [Function.update_of_ne hp] using ht
    cases hfault : e.fault with
    | failed =>
      simp only [State.release, hfault]
      exact h.update rfl hcleared
    | lost =>
      simp only [State.release, hfault, hknown, Option.getD_some]
      exact (h.lose hheld).update rfl hcleared
    | none =>
      simp only [State.release, hfault, hknown, Option.getD_some]
      refine @Sound.give _ _ _ _ _ _ _ h _ _ hne hheld { s.workers w with
        memory := renounce (s.workers w).memory o taker (g + 1)
        metas := Function.update (s.workers w).metas o none
        queues := Function.update (s.workers w).queues o []
        await := .granting o taker (departure layout.hysteresis w ((s.workers w).metas o) (g + 1)
          e.now) } rfl ?_ rfl rfl fun p => ?_
      · simp [State.update]
      · exact (h.poised w p).renounced rfl rfl (Function.update_self ..)
          (fun q hq => Function.update_of_ne hq ..) (.inr ⟨_, rfl, departure_generation ..⟩)

theorem Sound.returnHome (h : Sound layout s) {e : Env} (hidle : (s.workers w).await = .idle) :
    Sound layout (s.returnHome layout w o e) := by
  unfold State.returnHome
  split
  case h_2 => exact h
  case h_1 home hqueue hhome =>
    split_ifs with hw
    · exact h
    obtain ⟨m, hm, hreturn⟩ := Option.bind_eq_some_iff.mp hhome
    obtain ⟨g, hheld⟩ := Option.ne_none_iff_exists'.mp ((h.poised w o).returning m home hm hreturn)
    have hknown := h.known_held hheld
    cases hfault : e.fault with
    | failed =>
      simp only [State.release, hfault]
      exact h
    | lost =>
      simp only [State.release, hfault, hknown, Option.getD_some]
      exact h.lose hheld
    | none =>
      simp only [State.release, hfault, hknown, Option.getD_some]
      refine @Sound.give _ _ _ _ _ _ _ h _ _ hw hheld { s.workers w with
        memory := renounce (s.workers w).memory o home (g + 1)
        metas := Function.update (s.workers w).metas o none } rfl rfl rfl rfl fun p => ?_
      refine (h.poised w p).renounced (o := o) (d := home) (g := g + 1) ?_ ?_ ?_ ?_ ?_
      exacts [rfl, rfl, hqueue, fun _ _ => rfl, .inl hidle]

theorem rank_consider (best : Option Claim) (c : Claim) :
    ∃ b, Claim.consider best c = some b ∧ c.rank ≤ b.rank ∧
      (∀ a, best = some a → a.rank ≤ b.rank) ∧ (b = c ∨ best = some b) := by
  cases best with
  | none => exact ⟨c, rfl, le_rfl, nofun, .inl rfl⟩
  | some a =>
    by_cases hlt : a.rank < c.rank
    · refine ⟨c, by simp [Claim.consider, hlt], le_rfl, ?_, .inl rfl⟩
      rintro _ ⟨⟩
      exact hlt.le
    · refine ⟨a, by simp [Claim.consider, hlt], not_lt.mp hlt, ?_, .inr rfl⟩
      rintro _ ⟨⟩
      exact le_rfl

/-- A scan's best is one of the claims it met, and none of them outranks it. -/
theorem rank_foldl_consider (cs : List Claim) (best : Option Claim) :
    (∀ c, c ∈ cs ∨ best = some c →
      ∃ b, cs.foldl Claim.consider best = some b ∧ c.rank ≤ b.rank) ∧
    ∀ b, cs.foldl Claim.consider best = some b → b ∈ cs ∨ best = some b := by
  induction cs generalizing best with
  | nil => exact ⟨fun c hc => ⟨c, by simpa using hc, le_rfl⟩, fun b hb => .inr hb⟩
  | cons c cs ih =>
    obtain ⟨b, hb, hle, hbest, hfrom⟩ := rank_consider best c
    obtain ⟨ihrank, ihfrom⟩ := ih (Claim.consider best c)
    refine ⟨fun a ha => ?_, fun a ha => ?_⟩
    · rw [List.mem_cons, or_assoc] at ha
      rcases ha with rfl | ha | ha
      · obtain ⟨b', hb', hle'⟩ := ihrank b (.inr hb)
        exact ⟨b', hb', hle.trans hle'⟩
      · exact ihrank a (.inl ha)
      · obtain ⟨b', hb', hle'⟩ := ihrank b (.inr hb)
        exact ⟨b', hb', (hbest a ha).trans hle'⟩
    · rcases ihfrom a ha with hmem | heq
      · exact .inl (.tail _ hmem)
      · obtain rfl : b = a := Option.some.inj (hb.symm.trans heq)
        exact hfrom.imp_left fun hc => List.mem_cons.mpr (.inl hc)

section

omit [DecidableEq ι]

theorem mem_claims {cp : Checkpoint ι} {v : Nat} {c : Claim} : c ∈ cp.claims o v ↔
    (∃ g, cp.owned o = some g ∧ c = .owned v g) ∨
      ∃ d g, cp.transit o = some (d, g) ∧ c = .transit d g := by
  simp only [Checkpoint.claims, List.mem_append, Option.mem_toList,
    Option.map_eq_some_iff, Prod.exists]
  exact or_congr (exists_congr fun _ => and_congr_right fun _ => eq_comm)
    (exists_congr fun _ => exists_congr fun _ => and_congr_right fun _ => eq_comm)

/-- Where the best claim of a scan may come from, one read later. -/
theorem readNext_best {scan : Scan ι} {c : Claim} (hc : (s.readNext scan).best = some c) :
    scan.best = some c ∨ ∃ v todo cp, scan.todo = v :: todo ∧ s.checkpoints.lookup v = some cp ∧
      c ∈ cp.claims scan.object v := by
  unfold State.readNext at hc
  split at hc
  · exact .inl hc
  next v todo htodo =>
    dsimp only at hc
    split at hc
    next cp hcp =>
      rcases (rank_foldl_consider _ _).2 c hc with hmem | heq
      · exact .inr ⟨v, todo, cp, htodo, hcp, hmem⟩
      · exact .inl heq
    · exact .inl hc

/-- A read never lowers the best claim, and takes in what it meets. -/
theorem readNext_rank {scan : Scan ι} {v : Nat} {todo : List Nat} (htodo : scan.todo = v :: todo)
    {c : Claim} (hc : scan.best = some c ∨
      ∃ cp, s.checkpoints.lookup v = some cp ∧ c ∈ cp.claims scan.object v) :
    ∃ b, (s.readNext scan).best = some b ∧ c.rank ≤ b.rank := by
  unfold State.readNext
  rw [htodo]
  dsimp only
  cases hlookup : s.checkpoints.lookup v with
  | none =>
    rcases hc with hc | ⟨cp, hcp, _⟩
    · exact ⟨c, hc, le_rfl⟩
    · rw [hlookup] at hcp
      cases hcp
  | some cp =>
    refine (rank_foldl_consider _ _).1 c ?_
    rcases hc with hc | ⟨cp', hcp, hmem⟩
    · exact .inr hc
    · rw [hlookup] at hcp
      cases hcp
      exact .inl hmem

theorem readNext_object (scan : Scan ι) : (s.readNext scan).object = scan.object := by
  unfold State.readNext
  split <;> rfl

theorem readNext_todo {scan : Scan ι} {v : Nat} {todo : List Nat} (htodo : scan.todo = v :: todo) :
    (s.readNext scan).todo = todo := by
  unfold State.readNext
  rw [htodo]

/-- A worker that does not own an object finds no claim of its own to it. -/
theorem Sound.readNext_not_own (h : Sound layout s) {scan : Scan ι}
    (howned : (s.workers w).memory.owned scan.object = none)
    (hbest : ∀ g, scan.best ≠ some (.owned w g)) (g : Nat) :
    (s.readNext scan).best ≠ some (.owned w g) := by
  intro hc
  rcases readNext_best hc with heq | ⟨v, todo, cp, _, hcp, hmem⟩
  · exact hbest g heq
  · obtain ⟨T, hT⟩ := h.recorded scan.object
    rcases mem_claims.mp hmem with ⟨g', ho, heq⟩ | ⟨d, g', _, heq⟩ <;> cases heq
    rw [((hT.synced w howned).2 cp hcp).1] at ho
    cases ho

/-- Nor does it find a marker that sends it the object at the generation it sent it away. -/
theorem Sound.readNext_not_sent (h : Sound layout s) {scan : Scan ι} {d cur : Nat}
    (howned : (s.workers w).memory.owned scan.object = none)
    (htransit : (s.workers w).memory.transit scan.object = some (d, cur))
    (hbest : scan.best ≠ some (.transit w cur)) :
    (s.readNext scan).best ≠ some (.transit w cur) := by
  intro hc
  rcases readNext_best hc with heq | ⟨v, todo, cp, _, hcp, hmem⟩
  · exact hbest heq
  · obtain ⟨T, hT⟩ := h.recorded scan.object
    obtain ⟨hd, hrel, _⟩ := hT.renounced w d cur htransit
    rcases mem_claims.mp hmem with ⟨g', _, heq⟩ | ⟨d', g', ht, heq⟩ <;> cases heq
    rcases hT.marker v cp w cur hcp ht with hrel' | ⟨g, rfl, rfl⟩
    · obtain rfl := hT.released_unique v w cur hrel' hrel
      rw [((hT.synced v howned).2 cp hcp).2, htransit] at ht
      cases ht
      exact hd rfl
    · -- the marker of a renunciation that was taken back is newer than all that is known
      have hle := (hT.known_le w _ (known_of_transit howned htransit)).2
      dsimp only [Title.generation] at hle
      omega

theorem gate_accept {memory : Checkpoint ι} {g : Nat} (h : gate memory o g = .accept) :
    ∀ k, known memory o = some k → k < g := by
  intro k hk
  simp only [gate, hk] at h
  split_ifs at h with hlt
  exact hlt

theorem gate_reconcile {memory : Checkpoint ι} {g : Nat} (h : gate memory o g = .reconcile) :
    memory.owned o = none ∧ ∃ d cur, memory.transit o = some (d, cur) ∧ g ≤ cur := by
  unfold gate at h
  cases hk : known memory o with
  | none => simp [hk] at h
  | some cur =>
    simp only [hk] at h
    split_ifs at h with hlt howned
    refine ⟨howned, ?_⟩
    cases ht : memory.transit o with
    | none => simp [known, howned, ht] at hk
    | some t =>
      obtain ⟨d, c⟩ := t
      rw [known_of_transit howned ht] at hk
      cases hk
      exact ⟨d, _, rfl, not_lt.mp hlt⟩

end

/-- A deed is admitted if it is news and the title is open to it; otherwise nothing happens, or the
worker turns to the checkpoints. -/
theorem Sound.admitDeed (h : Sound layout s) {tm : TransferMeta} {after : After} {e : Env}
    (hopen : ∀ T, Recorded layout s o T →
      (∀ k, known (s.workers w).memory o = some k → k < tm.generation) →
      T.Open layout o w tm.generation ∧ 1 ≤ tm.generation)
    (hafter : ∀ taker reset, after = .queueTake taker reset → taker ≠ w) :
    Sound layout (s.admitDeed w o tm after e) := by
  obtain ⟨T, hT⟩ := h.recorded o
  unfold State.admitDeed
  cases hgate : gate (s.workers w).memory o tm.generation with
  | accept =>
    have hnew := gate_accept hgate
    obtain ⟨hT', hpos⟩ := hopen T hT hnew
    exact h.install hT hT' hnew hpos hafter
  | refuse => exact h.goToIdle
  | reconcile =>
    obtain ⟨howned, d, cur, htransit, hle⟩ := gate_reconcile hgate
    refine h.goTo fun p => ⟨(h.poised w p).queued, (h.poised w p).returning, ?_⟩
    rintro rfl
    refine ⟨howned, d, cur, htransit, hle, nofun, nofun, .inl ?_⟩
    have hlookup : s.checkpoints.lookup w ≠ none := fun hnone => by
      rw [(hT.synced w howned).1 hnone] at htransit
      cases htransit
    exact AList.lookup_isSome.mp (Option.isSome_iff_ne_none.mpr hlookup)

omit [DecidableEq ι] in
/-- A deed that stands opens the title to its addressee. -/
theorem Stands.opens {g : Nat} (hstands : Stands s w o g) {T : Title}
    (hT : Recorded layout s o T) (hnew : ∀ k, known (s.workers w).memory o = some k → k < g) :
    T.Open layout o w g ∧ 1 ≤ g := by
  rcases hstands with ⟨k, hk, hle⟩ | ⟨a, ha⟩
  · exact absurd (hnew k hk) (not_lt.mpr hle)
  · obtain ⟨hne, _, ⟨k, hk, hle⟩ | rfl⟩ := hT.renounced a w g ha
    · exact absurd (hnew k hk) (not_lt.mpr hle)
    · have howned : (s.workers a).memory.owned o = none :=
        Option.eq_none_iff_forall_ne_some.mpr fun c hc => nomatch (hT.owned_iff a c).mp hc
      exact ⟨⟨.inr rfl, le_rfl⟩, (hT.known_le a g (known_of_transit howned ha)).1⟩

omit [DecidableEq ι] in
/-- At its home an object with no claim on it is new. -/
theorem Recorded.opens_home {T : Title} (hT : Recorded layout s o T)
    (hhome : layout.defaultWorker o = w)
    (hnew : ∀ k, known (s.workers w).memory o = some k → k < 1) : T.Open layout o w 1 := by
  by_cases hfresh : T = .fresh
  · rw [hfresh]
    exact hhome
  · obtain ⟨k, hk⟩ := Option.ne_none_iff_exists'.mp (hT.home hfresh)
    rw [hhome] at hk
    have := (hT.known_le w k hk).1
    have := hnew k hk
    omega

theorem Sound.take (h : Sound layout s) {taker : Nat} (hne : taker ≠ w) :
    Sound layout (s.take w o taker) := by
  unfold State.take
  dsimp only
  split_ifs with howned htaking
  · refine h.update rfl fun p => ⟨fun t ht => ?_, (h.poised w p).returning, (h.poised w p).awaiting⟩
    by_cases hp : p = o
    · subst hp
      have hmem : t ∈ (s.workers w).queues p ++ [taker] := by simpa using ht
      refine ⟨?_, Option.isSome_iff_ne_none.mp howned⟩
      rcases List.mem_append.mp hmem with hmem | hmem
      · exact ((h.poised w p).queued t hmem).1
      · rwa [List.mem_singleton.mp hmem]
    · exact (h.poised w p).queued t (by simpa [Function.update_of_ne hp] using ht)
  · exact h
  · refine h.goTo fun p => ⟨(h.poised w p).queued, (h.poised w p).returning, ?_⟩
    rintro rfl
    exact ⟨hne, Option.not_isSome_iff_eq_none.mp howned, nofun⟩

/-- The end of a claim scan. -/
theorem Sound.onClaim (h : Sound layout s) {taker : Nat} {scan : Scan ι} {e : Env}
    (hawait : (s.workers w).await = .claiming taker scan)
    (hstands : ∀ g, scan.best = some (.transit w g) → Stands s w scan.object g) :
    Sound layout (s.onClaim layout w scan.object taker (scan.best.getD .unclaimed) e) := by
  have hpoised := (h.poised w scan.object).awaiting
  rw [hawait] at hpoised
  obtain ⟨hne, _, hown⟩ := hpoised rfl
  cases hbest : scan.best with
  | none =>
    dsimp only [Option.getD_none, State.onClaim]
    split_ifs with hhome
    · exact h.admitDeed (fun T hT hnew => ⟨hT.opens_home hhome hnew, le_rfl⟩)
        (by rintro _ _ ⟨⟩; exact hne)
    · exact h.goToIdle
  | some c =>
    cases c with
    | owned v g =>
      dsimp only [Option.getD_some, State.onClaim]
      split_ifs with hv
      · exact absurd (hv ▸ hbest) (hown g)
      · exact h.goToIdle
    | transit v g =>
      dsimp only [Option.getD_some, State.onClaim]
      split_ifs with hv
      · exact h.admitDeed (fun T hT hnew => (hstands g (hv ▸ hbest)).opens hT hnew)
          (by rintro _ _ ⟨⟩; exact hne)
      · exact h.goToIdle
    | unclaimed =>
      dsimp only [Option.getD_some, State.onClaim]
      split_ifs with hhome
      · exact h.admitDeed (fun T hT hnew => ⟨hT.opens_home hhome hnew, le_rfl⟩)
          (by rintro _ _ ⟨⟩; exact hne)
      · exact h.goToIdle

section

omit [DecidableEq ι]

/-- The ledger never confirms a deed that the worker's memory refused. -/
theorem Sound.not_confirms (h : Sound layout s) {tm : TransferMeta} {after : After} {scan : Scan ι}
    (hawait : (s.workers w).await = .reconciling tm after scan) (htodo : scan.todo = []) :
    ¬ State.Confirms (scan.best.getD .unclaimed) w tm.generation := by
  have hpoised := (h.poised w scan.object).awaiting
  rw [hawait] at hpoised
  obtain ⟨_, d, cur, _, hle, hown, hsent, htodo' | ⟨c, hc, hrank⟩⟩ := hpoised rfl
  · simp [htodo] at htodo'
  · rw [hc, Option.getD_some]
    have hcur : cur ≤ tm.generation → tm.generation = cur := fun hcur => le_antisymm hle hcur
    rintro (rfl | rfl)
    · rcases Prod.Lex.toLex_le_toLex.mp hrank with hlt | ⟨heq, _⟩
      · exact absurd hlt (not_lt.mpr hle)
      · dsimp only at heq
        exact hsent (by rw [hc, heq])
    · exact hown _ hc

theorem Sound.readNext_claiming (h : Sound layout s) {taker : Nat} {scan : Scan ι}
    (hawait : (s.workers w).await = .claiming taker scan) :
    Sound layout (s.goTo w (.claiming taker (s.readNext scan))) := by
  refine h.goTo fun p => ⟨(h.poised w p).queued, (h.poised w p).returning, ?_⟩
  have hpoised := (h.poised w p).awaiting
  rw [hawait] at hpoised
  intro hp
  rw [readNext_object] at hp
  subst hp
  obtain ⟨hne, howned, hown⟩ := hpoised rfl
  exact ⟨hne, howned, h.readNext_not_own howned hown⟩

theorem Sound.readNext_reconciling (h : Sound layout s) {tm : TransferMeta} {after : After}
    {scan : Scan ι} (hawait : (s.workers w).await = .reconciling tm after scan)
    (htodo : scan.todo ≠ []) :
    Sound layout (s.goTo w (.reconciling tm after (s.readNext scan))) := by
  refine h.goTo fun p => ⟨(h.poised w p).queued, (h.poised w p).returning, ?_⟩
  have hpoised := (h.poised w p).awaiting
  rw [hawait] at hpoised
  intro hp
  rw [readNext_object] at hp
  subst hp
  obtain ⟨howned, d, cur, htransit, hle, hown, hsent, hahead⟩ := hpoised rfl
  refine ⟨howned, d, cur, htransit, hle, h.readNext_not_own howned hown,
    h.readNext_not_sent howned htransit hsent, ?_⟩
  obtain ⟨v, todo, htodo⟩ := List.exists_cons_of_ne_nil htodo
  rw [readNext_todo htodo]
  rcases hahead with hmem | ⟨c, hc, hrank⟩
  · rw [htodo, List.mem_cons] at hmem
    rcases hmem with rfl | hmem
    · -- its own checkpoint has the renunciation
      right
      obtain ⟨T, hT⟩ := h.recorded scan.object
      obtain ⟨hnone, hsome⟩ := hT.synced w howned
      cases hlookup : s.checkpoints.lookup w with
      | none =>
        rw [hnone hlookup] at htransit
        cases htransit
      | some cp =>
        exact readNext_rank htodo (.inr ⟨cp, hlookup,
          mem_claims.mpr (.inr ⟨d, cur, (hsome cp hlookup).2.trans htransit, rfl⟩)⟩)
    · exact .inl hmem
  · obtain ⟨b, hb, hle'⟩ := readNext_rank (s := s) htodo (.inl hc)
    exact .inr ⟨b, hb, hrank.trans hle'⟩

end

theorem Sound.read (h : Sound layout s) {e : Env} (hbacked : Backed s (.read w, e)) :
    Sound layout (s.read layout w e) := by
  unfold State.read
  split
  case h_1 taker scan hawait =>
    split_ifs with htodo
    · exact h.onClaim hawait fun g hg => hbacked taker scan g hawait htodo hg
    · exact h.readNext_claiming hawait
  case h_2 tm after scan hawait =>
    split_ifs with htodo hconfirms
    · exact absurd hconfirms (h.not_confirms hawait htodo)
    · exact h.goToIdle
    · exact h.readNext_reconciling hawait htodo
  case h_3 => exact h
  case h_4 => exact h

theorem Sound.reply (h : Sound layout s) {delivered : Bool} {e : Env}
    (hbacked : Backed s (.reply w delivered, e)) : Sound layout (s.reply w delivered e) := by
  unfold State.reply
  split
  case h_2 => exact h
  case h_1 object taker tm hawait =>
    have hpoised := (h.poised w object).awaiting
    rw [hawait] at hpoised
    obtain ⟨howned, htransit⟩ := hpoised rfl
    cases delivered with
    | true => exact h.goToIdle.still rfl rfl rfl
    | false =>
      refine h.goToIdle.admitDeed (fun T hT hnew => ?_) nofun
      have hknown : known (s.workers w).memory object = some tm.generation :=
        known_of_transit howned htransit
      have hmemory : ((s.goTo w .idle).workers w).memory = (s.workers w).memory := by
        simp [State.goTo, State.update]
      obtain ⟨_, _, hknows | rfl⟩ := hT.renounced w taker tm.generation (by rw [hmemory, htransit])
      · refine absurd ?_ (hbacked object taker tm hawait)
        obtain ⟨k, hk, hle⟩ := hknows
        refine ⟨k, ?_, hle⟩
        rw [← hk]
        by_cases hv : taker = w
        · rw [hv, hmemory]
        · simp [State.goTo, State.update, Function.update_of_ne hv]
      · exact ⟨⟨.inl rfl, Nat.le_succ _⟩, Nat.le_add_left 1 _⟩

theorem Sound.onTaken (h : Sound layout s) {d : Deed ι} {e : Env}
    (hstands : (s.workers d.dest).memory.owned d.object = none →
      Stands s d.dest d.object d.tm.generation) : Sound layout (s.onTaken d e) := by
  unfold State.onTaken
  split_ifs with howned
  · exact h
  · exact h.admitDeed (fun T hT hnew =>
      (hstands (Option.not_isSome_iff_eq_none.mp howned)).opens hT hnew) nofun

theorem Sound.unpark (h : Sound layout s) : Sound layout (s.unpark w o) :=
  h.update rfl fun p => ⟨(h.poised w p).queued, (h.poised w p).returning, (h.poised w p).awaiting⟩

omit [DecidableEq ι] in
theorem Sound.park (h : Sound layout s) : Sound layout (s.park w o) :=
  h.update rfl fun p => ⟨(h.poised w p).queued, (h.poised w p).returning, (h.poised w p).awaiting⟩

omit [DecidableEq ι] in
theorem Sound.chase (h : Sound layout s) {i : Nat} : Sound layout (s.chase i) := by
  unfold State.chase
  split
  · exact h
  · split_ifs
    · dsimp only
      split
      · split_ifs <;> exact h.still rfl rfl rfl
      · split_ifs <;> exact h.still rfl rfl rfl
      · exact h.still rfl rfl rfl
    · exact h.still rfl rfl rfl

theorem unpark_memory (v : Nat) : ((s.unpark w o).workers v).memory = (s.workers v).memory := by
  by_cases hv : v = w
  · simp [State.unpark, State.update, hv]
  · simp [State.unpark, State.update, Function.update_of_ne hv]

omit [DecidableEq ι] in
theorem Sound.whenIdle (h : Sound layout s) (hnext : (s.workers w).await = .idle →
    Sound layout s') : Sound layout (s.whenIdle w s') := by
  unfold State.whenIdle
  split
  next hidle => exact hnext hidle
  · exact h

theorem sound_step (h : Sound layout s) {m : Move ι × Env} (hbacked : Backed s m) :
    Sound layout (s.step layout m) := by
  obtain ⟨move, e⟩ := m
  unfold State.step
  cases move with
  | take w object taker =>
    dsimp only
    split_ifs with hne
    · exact h
    · exact h.whenIdle fun _ => h.take hne
  | adopt i =>
    dsimp only
    cases hd : s.deeds[i]? with
    | none => exact h
    | some d =>
      exact h.whenIdle fun hidle =>
        h.admitDeed (fun T hT hnew => (hbacked d hd hidle).opens hT hnew) nofun
  | taken i =>
    dsimp only
    cases hd : s.deeds[i]? with
    | none => exact h
    | some d =>
      refine h.whenIdle fun hidle => h.unpark.onTaken fun howned => ?_
      rw [unpark_memory] at howned
      simpa only [Stands, Knows, unpark_memory] using hbacked d hd hidle howned
  | park w object => exact h.whenIdle fun _ => h.park
  | unpark w object => exact h.whenIdle fun _ => h.unpark
  | read w => exact h.read hbacked
  | grant w object => exact h.whenIdle fun _ => h.grant
  | reply w delivered => exact h.reply hbacked
  | returnHome w object => exact h.whenIdle fun hidle => h.returnHome hidle
  | checkpoint w => exact h.checkpoint
  | startChase w object => exact h.still rfl rfl rfl
  | chase i => exact h.chase

/-- Deeds acted on only while they stand are spent once. -/
theorem one_spend (layout : Layout ι) (moves : List (Move ι × Env))
    (hbacked : Runs.Guarded (State.step layout) Backed {} moves) :
    Runs.Throughout (State.step layout) OneSpend {} moves :=
  Runs.Guarded.throughout (I := Sound layout) (fun _ _ h hb => sound_step h hb)
    (fun _ h => h.oneSpend) (sound_initial layout) hbacked

/-- Worker 0 is home to all; it hands object 0 to worker 1 in reply to its take. -/
def handoffRun : List (Move Nat × Env) :=
  [(.take 0 0 1, {}), (.read 0, {}), (.grant 0 0, {}), (.reply 0 true, {}), (.taken 0, {})]

theorem one_spend_handoff :
    Runs.Throughout (State.step ⟨fun _ => 0, 0⟩) OneSpend {} handoffRun ∧
      ((Runs.run (State.step ⟨fun _ => 0, 0⟩) {} handoffRun).workers 1).memory.owned 0 =
        some 2 := by
  refine ⟨one_spend _ _ ⟨trivial, nofun, trivial, trivial, ?_, trivial⟩, rfl⟩
  rintro d hd _ _
  cases hd
  exact .inr ⟨0, rfl⟩

/-- The reply to the take never arrives, and worker 0 reclaims the object while its marker still
sends it to worker 1. A take of worker 2 makes worker 1 spend the marker. -/
def reclaimRun : List (Move Nat × Env) :=
  [(.take 0 0 1, {}), (.read 0, {}), (.grant 0 0, {}), (.reply 0 false, { fault := .failed }),
    (.take 1 0 2, {}), (.read 1, {}), (.read 1, {})]

theorem reclaimed_deed_spent_twice :
    ¬ Runs.Throughout (State.step ⟨fun _ => 0, 0⟩) OneSpend {} reclaimRun := by
  intro h
  have hsingle := h.last.1 0 0 1 (by decide) (by decide)
  cases hsingle

end Fafo.Ownership
