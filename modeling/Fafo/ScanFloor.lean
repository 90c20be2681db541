import Mathlib.Data.List.Dedup
import Mathlib.Order.WithBot
import Fafo.OneSpend

/-! A claim scan among handoffs of its object: what it answers against what was durable at its
start. -/
namespace Fafo.Ownership

open Interleave

variable {ι : Type}

/-- What a worker's checkpoint says; a worker without one claims nothing. -/
def State.durable (s : State ι) (w : Nat) : Checkpoint ι :=
  (s.checkpoints.lookup w).getD ⟨fun _ => none, fun _ => none⟩

/-- The rank of the highest claim on the object. -/
def height (cp : Checkpoint ι) (o : ι) : WithBot (Nat ×ₗ Nat) :=
  max ((cp.owned o).elim ⊥ fun g => ((toLex (g, 1) : Nat ×ₗ Nat) : WithBot (Nat ×ₗ Nat)))
    ((cp.transit o).elim ⊥ fun t => ((toLex (t.2, 0) : Nat ×ₗ Nat) : WithBot (Nat ×ₗ Nat)))

/-- The rank of a scan's best claim so far. -/
def bestRank (best : Option Claim) : WithBot (Nat ×ₗ Nat) :=
  best.elim ⊥ fun c => (c.rank : WithBot (Nat ×ₗ Nat))

section Height

variable {cp : Checkpoint ι} {o : ι} {d g k v : Nat}

theorem height_of_owned (ho : cp.owned o = some g) (ht : cp.transit o = none) :
    height cp o = (toLex (g, 1) : Nat ×ₗ Nat) := by
  simp [height, ho, ht]

theorem height_of_transit (ho : cp.owned o = none) (ht : cp.transit o = some (d, g)) :
    height cp o = (toLex (g, 0) : Nat ×ₗ Nat) := by
  simp [height, ho, ht]

theorem height_congr {cp' : Checkpoint ι} (ho : cp'.owned o = cp.owned o)
    (ht : cp'.transit o = cp.transit o) : height cp' o = height cp o := by
  rw [height, height, ho, ht]

theorem marker_le_owned (h : g ≤ k) : (toLex (g, 0) : Nat ×ₗ Nat) ≤ toLex (k, 1) := by
  rw [Prod.Lex.toLex_le_toLex]
  omega

theorem owned_le_owned (h : g ≤ k) : (toLex (g, 1) : Nat ×ₗ Nat) ≤ toLex (k, 1) := by
  rw [Prod.Lex.toLex_le_toLex]
  omega

theorem owned_le_marker (h : g < k) : (toLex (g, 1) : Nat ×ₗ Nat) ≤ toLex (k, 0) := by
  rw [Prod.Lex.toLex_le_toLex]
  omega

theorem rank_le_height {c : Claim} (h : c ∈ cp.claims o v) :
    (c.rank : WithBot _) ≤ height cp o := by
  rcases mem_claims.mp h with ⟨g, ho, rfl⟩ | ⟨d, g, ht, rfl⟩
  · exact le_sup_of_le_left (by simp [ho, Claim.rank])
  · exact le_sup_of_le_right (by simp [ht, Claim.rank])

/-- Whatever outranks all the claims of a checkpoint outranks their height. -/
theorem height_le {r : WithBot (Nat ×ₗ Nat)}
    (h : ∀ c ∈ cp.claims o v, (c.rank : WithBot _) ≤ r) : height cp o ≤ r := by
  refine max_le ?_ ?_
  · cases ho : cp.owned o with
    | none => exact bot_le
    | some g => exact h (.owned v g) (mem_claims.mpr (.inl ⟨g, ho, rfl⟩))
  · cases ht : cp.transit o with
    | none => exact bot_le
    | some t => exact h (.transit t.1 t.2) (mem_claims.mpr (.inr ⟨t.1, t.2, ht, rfl⟩))

/-- A scan that reads a checkpoint has read its claims, and has kept its best. -/
theorem bestRank_foldl (cp : Checkpoint ι) (best : Option Claim) :
    bestRank best ≤ bestRank ((cp.claims o v).foldl Claim.consider best) ∧
      height cp o ≤ bestRank ((cp.claims o v).foldl Claim.consider best) := by
  have hrank : ∀ c, c ∈ cp.claims o v ∨ best = some c →
      (c.rank : WithBot _) ≤ bestRank ((cp.claims o v).foldl Claim.consider best) := by
    intro c hc
    obtain ⟨b, hb, hle⟩ := (rank_foldl_consider _ _).1 c hc
    rw [hb]
    exact WithBot.coe_le_coe.mpr hle
  constructor
  · cases best with
    | none => exact bot_le
    | some b => exact hrank b (.inr rfl)
  · exact height_le fun c hc => hrank c (.inl hc)

end Height

/-- Where a reconciliation stands: the deed is not past the worker's renunciation, whose marker is
still to be read, or ranks no higher than what has been read. -/
def Reconciles (w : Nat) (memory : Checkpoint ι) (tm : TransferMeta) (scan : Scan ι) : Prop :=
  memory.owned scan.object = none ∧ ∃ d cur, memory.transit scan.object = some (d, cur) ∧
    tm.generation ≤ cur ∧
    (w ∈ scan.todo ∨ ((toLex (cur, 0) : Nat ×ₗ Nat) : WithBot _) ≤ bestRank scan.best)

/-- What holds of a worker, its checkpoint and an object, whatever becomes of the checkpoint's puts.
Of an object that it holds the checkpoint may have a renunciation that memory has taken back. -/
structure Firm (w : Nat) (worker : Worker ι) (cp : Checkpoint ι) (o : ι) : Prop where
  queued : worker.queues o ≠ [] → worker.memory.owned o ≠ none
  returning : ∀ m home, worker.metas o = some m → m.returnTo = some home →
    worker.memory.owned o ≠ none
  alone : worker.memory.owned o ≠ none → worker.memory.transit o = none
  synced : worker.memory.owned o = none →
    cp.owned o = none ∧ cp.transit o = worker.memory.transit o
  held : ∀ k, worker.memory.owned o = some k →
    height cp o ≤ (toLex (k, 1) : Nat ×ₗ Nat) ∨
      cp.owned o = none ∧ ∃ d, cp.transit o = some (d, k + 1)
  reconciling : ∀ tm after scan, worker.await = .reconciling tm after scan →
    Reconciles w worker.memory tm scan

/-- A checkpoint renounces the object, and memory has taken that back. -/
def TakenBack (memory cp : Checkpoint ι) (o : ι) : Prop :=
  ∃ k d g, memory.owned o = some k ∧ cp.transit o = some (d, g) ∧ k < g

/-- An admission at this generation is above all that a memory has of the object. -/
def News (memory : Checkpoint ι) (o : ι) (g : Nat) : Prop :=
  height memory o ≤ (toLex (g, 1) : Nat ×ₗ Nat) ∧ ∀ k, memory.owned o = some k → k < g

section Firm

variable {w : Nat} {worker worker' : Worker ι} {cp : Checkpoint ι} {o p : ι}

/-- Unless a renunciation was taken back, the checkpoint claims no more than memory. -/
theorem Firm.height_le (h : Firm w worker cp o) (hkept : ¬ TakenBack worker.memory cp o) :
    height cp o ≤ height worker.memory o := by
  cases ho : worker.memory.owned o with
  | none =>
    obtain ⟨howned, htransit⟩ := h.synced ho
    exact (height_congr (howned.trans ho.symm) htransit).le
  | some k =>
    rw [height_of_owned ho (h.alone (by simp [ho]))]
    rcases h.held k ho with hle | ⟨_, d, ht⟩
    · exact hle
    · exact absurd ⟨k, d, k + 1, ho, ht, Nat.lt_succ_self k⟩ hkept

/-- A put of the checkpoint. -/
theorem Firm.put (h : Firm w worker cp o) : Firm w worker worker.memory o where
  queued := h.queued
  returning := h.returning
  alone := h.alone
  synced ho := ⟨ho, rfl⟩
  held k ho := .inl (height_of_owned ho (h.alone (by simp [ho]))).le
  reconciling := h.reconciling

/-- A worker moves on without touching its memory. -/
theorem Firm.move (h : Firm w worker cp o) (hmemory : worker'.memory = worker.memory)
    (hqueued : worker'.queues o ≠ [] → worker.memory.owned o ≠ none)
    (hmetas : worker'.metas = worker.metas)
    (hreconciling : ∀ tm after scan, worker'.await = .reconciling tm after scan →
      Reconciles w worker.memory tm scan) :
    Firm w worker' cp o where
  queued := by rwa [hmemory]
  returning := by
    rw [hmemory, hmetas]
    exact h.returning
  alone := by
    rw [hmemory]
    exact h.alone
  synced := by
    rw [hmemory]
    exact h.synced
  held := by
    rw [hmemory]
    exact h.held
  reconciling := by rwa [hmemory]

/-- The handler that changes a worker is done, and has left the object as it was. -/
theorem Firm.frame (h : Firm w worker cp o)
    (howned : worker'.memory.owned o = worker.memory.owned o)
    (htransit : worker'.memory.transit o = worker.memory.transit o)
    (hqueues : worker'.queues o ≠ [] → worker.queues o ≠ [])
    (hmetas : worker'.metas o = worker.metas o)
    (hawait : ∀ tm after scan, worker'.await ≠ .reconciling tm after scan) :
    Firm w worker' cp o where
  queued hne := howned ▸ h.queued (hqueues hne)
  returning := by
    rw [howned, hmetas]
    exact h.returning
  alone := by
    rw [howned, htransit]
    exact h.alone
  synced := by
    rw [howned, htransit]
    exact h.synced
  held := by
    rw [howned]
    exact h.held
  reconciling tm after scan heq := absurd heq (hawait tm after scan)

theorem Firm.congr {cp' : Checkpoint ι} (h : Firm w worker cp o) (ho : cp'.owned o = cp.owned o)
    (ht : cp'.transit o = cp.transit o) : Firm w worker cp' o where
  queued := h.queued
  returning := h.returning
  alone := h.alone
  synced := by
    rw [ho, ht]
    exact h.synced
  held := by
    rw [height_congr ho ht, ho, ht]
    exact h.held
  reconciling := h.reconciling

theorem firm_initial : Firm w ({} : Worker ι) ⟨fun _ => none, fun _ => none⟩ o := by
  constructor <;> simp

/-- An admission outranks whatever the checkpoint has. -/
theorem Firm.height_le_admitted (h : Firm w worker cp o) {g : Nat}
    (hnews : News worker.memory o g) : height cp o ≤ (toLex (g, 1) : Nat ×ₗ Nat) := by
  obtain ⟨hknown, hheld⟩ := hnews
  cases ho : worker.memory.owned o with
  | none =>
    obtain ⟨howned, htransit⟩ := h.synced ho
    rwa [height_congr (howned.trans ho.symm) htransit]
  | some k =>
    have hlt := hheld k ho
    rcases h.held k ho with hle | ⟨howned, d, ht⟩
    · exact hle.trans (WithBot.coe_le_coe.mpr (owned_le_owned hlt.le))
    · rw [height_of_transit howned ht]
      exact WithBot.coe_le_coe.mpr (marker_le_owned hlt)

/-- So does a renunciation. -/
theorem Firm.height_le_renounced (h : Firm w worker cp o) {g : Nat}
    (hheld : worker.memory.owned o = some g) :
    height cp o ≤ (toLex (g + 1, 0) : Nat ×ₗ Nat) := by
  rcases h.held g hheld with hle | ⟨howned, d, ht⟩
  · exact hle.trans (WithBot.coe_le_coe.mpr (owned_le_marker (Nat.lt_succ_self g)))
  · exact (height_of_transit howned ht).le

/-- A deed that passes the gate is news. -/
theorem Firm.news {worker : Worker ι} {cp : Checkpoint ι} (h : Firm w worker cp p) {g : Nat}
    (hnew : ∀ k, known worker.memory p = some k → k < g) : News worker.memory p g := by
  cases ho : worker.memory.owned p with
  | some k =>
    have ht := h.alone (by simp [ho])
    have hlt := hnew k (known_of_owned ho ht)
    refine ⟨?_, fun k' hk' => ?_⟩
    · rw [height_of_owned ho ht]
      exact WithBot.coe_le_coe.mpr (owned_le_owned hlt.le)
    · rw [ho] at hk'
      cases hk'
      exact hlt
  | none =>
    refine ⟨?_, by simp [ho]⟩
    cases ht : worker.memory.transit p with
    | none => simp [height, ho, ht]
    | some t =>
      rw [height_of_transit ho ht]
      exact WithBot.coe_le_coe.mpr (marker_le_owned (hnew t.2 (known_of_transit ho ht)).le)

variable [DecidableEq ι] {g d : Nat}

theorem Firm.installed {tm : TransferMeta} {after : After} {e : Env} (h : Firm w worker cp o)
    (hnews : News worker.memory p tm.generation) :
    Firm w (worker.installed w p tm after e) cp o := by
  have hawait : ∀ tm' after' scan,
      (worker.installed w p tm after e).await ≠ .reconciling tm' after' scan := by
    cases after <;> exact nofun
  by_cases hop : o = p
  · subst hop
    have howned : (worker.installed w o tm after e).memory.owned o = some tm.generation := by
      rw [installed_memory, hold_owned]
    constructor
    case queued => simp [howned]
    case returning => simp [howned]
    case alone => simp [installed_memory]
    case synced => simp [howned]
    case held =>
      intro k hk
      rw [howned] at hk
      cases hk
      exact .inl (h.height_le_admitted hnews)
    case reconciling => exact fun tm' after' scan heq => absurd heq (hawait tm' after' scan)
  · obtain ⟨ho, ht⟩ := hold_of_ne (g := tm.generation) worker.memory hop
    refine h.frame (by rw [installed_memory, ho]) (by rw [installed_memory, ht]) ?_ ?_ hawait
    · cases after <;> simp [Worker.installed, Function.update_of_ne hop]
    · cases after <;> simp [Worker.installed, Function.update_of_ne hop]

/-- The renunciation is durable. -/
theorem Firm.renounced (h : Firm w worker cp o)
    (hmemory : worker'.memory = renounce worker.memory p d g) (hqueue : worker'.queues p = [])
    (hqueues : ∀ q, q ≠ p → worker'.queues q = worker.queues q)
    (hmetas : worker'.metas = Function.update worker.metas p none)
    (hawait : ∀ tm after scan, worker'.await ≠ .reconciling tm after scan) :
    Firm w worker' worker'.memory o := by
  by_cases hop : o = p
  · subst hop
    constructor
    case queued => simp [hqueue]
    case returning => simp [hmetas]
    case alone => simp [hmemory]
    case synced => exact fun ho => ⟨ho, rfl⟩
    case held => simp [hmemory]
    case reconciling => exact fun tm after scan heq => absurd heq (hawait tm after scan)
  · obtain ⟨ho, ht⟩ := renounce_of_ne (d := d) (g := g) worker.memory hop
    refine (h.frame (by rw [hmemory, ho]) (by rw [hmemory, ht]) ?_ ?_ hawait).put
    · rw [hqueues o hop]
      exact id
    · rw [hmetas, Function.update_of_ne hop]

/-- The renunciation is durable, and memory takes it back. -/
theorem Firm.takenBack (h : Firm w worker cp o) (hheld : worker.memory.owned p = some g) :
    Firm w worker (renounce worker.memory p d (g + 1)) o := by
  by_cases hop : o = p
  · subst hop
    refine ⟨h.queued, h.returning, h.alone, ?_, ?_, h.reconciling⟩
    · simp [hheld]
    · intro k hk
      rw [hheld] at hk
      cases hk
      exact .inr ⟨renounce_owned, d, renounce_transit⟩
  · obtain ⟨ho, ht⟩ := renounce_of_ne (d := d) (g := g + 1) worker.memory hop
    exact h.put.congr ho ht

end Firm

/-- Every worker is firm about every object. -/
def Firmly (s : State ι) : Prop := ∀ w o, Firm w (s.workers w) (s.durable w) o

/-- No checkpoint claims the object lower than before. -/
def Raises (s s' : State ι) (o : ι) : Prop :=
  ∀ w, height (s.durable w) o ≤ height (s'.durable w) o

section Steps

variable {s s' : State ι} {w : Nat} {worker : Worker ι} {o p : ι} {layout : Layout ι}

theorem durable_congr {v : Nat} (h : s'.checkpoints.lookup v = s.checkpoints.lookup v) :
    s'.durable v = s.durable v := by
  rw [State.durable, State.durable, h]

theorem durable_of_insert {b : Blobs Nat (Checkpoint ι)} {cp : Checkpoint ι}
    (h : s.checkpoints = b.insert w cp) : s.durable w = cp := by
  rw [State.durable, h, AList.lookup_insert, Option.getD_some]

theorem lookup_of_insert {cp : Checkpoint ι} (h : s'.checkpoints = s.checkpoints.insert w cp)
    {v : Nat} (hv : v ≠ w) : s'.checkpoints.lookup v = s.checkpoints.lookup v := by
  rw [h, AList.lookup_insert_ne hv]

theorem Raises.refl (s : State ι) (o : ι) : Raises s s o := fun _ => le_rfl

theorem raises_same (h : s'.checkpoints = s.checkpoints) : Raises s s' o :=
  fun _ => (congrArg (height · o) (durable_congr (by rw [h]))).ge

/-- A step of one worker, that puts no checkpoint but its own. -/
theorem Firmly.local (h : Firmly s) (hworkers : s'.workers = Function.update s.workers w worker)
    (hlookup : ∀ v, v ≠ w → s'.checkpoints.lookup v = s.checkpoints.lookup v)
    (hw : ∀ q, Firm w worker (s'.durable w) q) : Firmly s' := by
  intro v q
  by_cases hv : v = w
  · subst hv
    rw [hworkers, Function.update_self]
    exact hw q
  · rw [hworkers, Function.update_of_ne hv, durable_congr (hlookup v hv)]
    exact h v q

theorem raises_local (hlookup : ∀ v, v ≠ w → s'.checkpoints.lookup v = s.checkpoints.lookup v)
    (hw : height (s.durable w) o ≤ height (s'.durable w) o) : Raises s s' o := by
  intro v
  by_cases hv : v = w
  · exact hv ▸ hw
  · rw [durable_congr (hlookup v hv)]

theorem Firmly.update (h : Firmly s) (hw : ∀ q, Firm w worker (s.durable w) q) :
    Firmly (s.update w worker) :=
  h.local rfl (fun _ _ => rfl) hw

theorem Firmly.same (h : Firmly s) (hworkers : s'.workers = s.workers)
    (hcheckpoints : s'.checkpoints = s.checkpoints) : Firmly s' := by
  intro v q
  have hdurable : s'.durable v = s.durable v := durable_congr (by rw [hcheckpoints])
  rw [hworkers, hdurable]
  exact h v q

/-- A worker comes to another await, or to the same one further on. -/
theorem Firmly.goTo (h : Firmly s) {await : Await ι}
    (hawait : ∀ tm after scan, await = .reconciling tm after scan →
      Reconciles w (s.workers w).memory tm scan) : Firmly (s.goTo w await) :=
  h.update fun q => (h w q).move rfl (h w q).queued rfl hawait

theorem Firmly.goToIdle (h : Firmly s) : Firmly (s.goTo w .idle) :=
  h.goTo fun _ _ _ heq => nomatch heq

theorem Firmly.goToClaiming (h : Firmly s) {taker : Nat} {scan : Scan ι} :
    Firmly (s.goTo w (.claiming taker scan)) :=
  h.goTo fun _ _ _ heq => nomatch heq

/-- What a step of a worker comes to whose put, if it makes one, is for the object `p`: no
checkpoint claims an object lower, unless the put forgets a renunciation of some other object. -/
structure Climbs (s s' : State ι) (w : Nat) (p : Option ι) (fault : Fault) : Prop where
  firmly : Firmly s'
  raises : ∀ o, (p ≠ some o → TakenBack (s.workers w).memory (s.durable w) o → fault = .failed) →
    Raises s s' o

theorem Firmly.quiet {p : Option ι} {fault : Fault} (h : Firmly s')
    (hcheckpoints : s'.checkpoints = s.checkpoints) : Climbs s s' w p fault :=
  ⟨h, fun _ _ => raises_same hcheckpoints⟩

/-- What came before the step left memory and checkpoints alone. -/
theorem Climbs.after {s₀ : State ι} {p : Option ι} {fault : Fault} (h : Climbs s s' w p fault)
    (hmemory : (s.workers w).memory = (s₀.workers w).memory)
    (hcheckpoints : s.checkpoints = s₀.checkpoints) : Climbs s₀ s' w p fault := by
  have hdurable : ∀ v, s.durable v = s₀.durable v := fun v => durable_congr (by rw [hcheckpoints])
  refine ⟨h.firmly, fun o hkept v => ?_⟩
  rw [← hdurable]
  refine h.raises o ?_ v
  rwa [hmemory, hdurable]

theorem Firmly.checkpoint (h : Firmly s) (fault : Fault) :
    Climbs s (s.checkpoint w fault) w none fault := by
  unfold State.checkpoint
  split_ifs with hfault
  · exact h.quiet rfl
  · have hput : State.durable
        { s with checkpoints := s.checkpoints.insert w (s.workers w).memory } w =
        (s.workers w).memory := durable_of_insert rfl
    constructor
    · refine h.local (w := w) (Function.update_eq_self w s.workers).symm
        (fun v hv => lookup_of_insert rfl hv) fun q => ?_
      rw [hput]
      exact (h w q).put
    · intro o hkept
      refine raises_local (w := w) (fun v hv => lookup_of_insert rfl hv) ?_
      rw [hput]
      exact (h w o).height_le fun htaken => hfault (hkept nofun htaken)

theorem bestRank_readNext (scan : Scan ι) :
    bestRank scan.best ≤ bestRank (s.readNext scan).best := by
  unfold State.readNext
  split
  · exact le_rfl
  · dsimp only
    split
    · exact (bestRank_foldl _ scan.best).1
    · exact le_rfl

theorem height_readNext {scan : Scan ι} {v : Nat} {todo : List Nat}
    (htodo : scan.todo = v :: todo) :
    height (s.durable v) scan.object ≤ bestRank (s.readNext scan).best := by
  unfold State.readNext State.durable
  rw [htodo]
  dsimp only
  cases s.checkpoints.lookup v with
  | none => exact bot_le
  | some cp => exact (bestRank_foldl cp scan.best).2

/-- A reconciliation that reads on has its own checkpoint still to read, or has met its marker. -/
theorem Firmly.readOn (h : Firmly s) {tm : TransferMeta} {after : After} {scan : Scan ι}
    (hawait : (s.workers w).await = .reconciling tm after scan) (htodo : scan.todo ≠ []) :
    Firmly (s.goTo w (.reconciling tm after (s.readNext scan))) := by
  refine h.goTo ?_
  rintro _ _ _ ⟨⟩
  have hobject := readNext_object (s := s) scan
  obtain ⟨howned, d, cur, htransit, hle, hahead⟩ :=
    (h w scan.object).reconciling tm after scan hawait
  refine ⟨by rwa [hobject], d, cur, by rwa [hobject], hle, ?_⟩
  obtain ⟨v, todo, htodo⟩ := List.exists_cons_of_ne_nil htodo
  rw [readNext_todo htodo]
  rcases hahead with hmem | hmet
  · rw [htodo, List.mem_cons] at hmem
    rcases hmem with rfl | hmem
    · right
      obtain ⟨ho, ht⟩ := (h w scan.object).synced howned
      rw [← height_of_transit ho (ht.trans htransit)]
      exact height_readNext htodo
    · exact .inl hmem
  · exact .inr (hmet.trans (bestRank_readNext scan))

/-- A deed at or below what was renounced is confirmed only at the very generation renounced. -/
theorem Firmly.confirmed (h : Firmly s) {tm : TransferMeta} {after : After} {scan : Scan ι}
    (hawait : (s.workers w).await = .reconciling tm after scan) (htodo : scan.todo = [])
    (hconfirms : State.Confirms (scan.best.getD .unclaimed) w tm.generation) :
    News (s.workers w).memory scan.object tm.generation := by
  obtain ⟨howned, d, cur, htransit, hle, hmem | hmet⟩ :=
    (h w scan.object).reconciling tm after scan hawait
  · rw [htodo] at hmem
    cases hmem
  · refine ⟨?_, by simp [howned]⟩
    rw [height_of_transit howned htransit]
    refine WithBot.coe_le_coe.mpr (marker_le_owned ?_)
    cases hbest : scan.best with
    | none => exact absurd hmet (by simp [hbest, bestRank])
    | some c =>
      rw [hbest] at hmet hconfirms
      have hrank := WithBot.coe_le_coe.mp hmet
      rcases hconfirms with rfl | rfl
      · simp only [Claim.rank, Prod.Lex.toLex_le_toLex] at hrank
        omega
      · simp only [Claim.rank, Prod.Lex.toLex_le_toLex] at hrank
        omega

variable [DecidableEq ι]

theorem durable_install (tm : TransferMeta) (after : After) (e : Env) :
    ((s.install w p tm after e).durable w = s.durable w) ∨
      e.fault ≠ .failed ∧
        (s.install w p tm after e).durable w = hold (s.workers w).memory p tm.generation := by
  by_cases hfault : e.fault = .failed
  · left
    apply durable_congr
    simp [State.install, State.checkpoint, hfault, State.update]
  · refine .inr ⟨hfault, durable_of_insert (b := s.checkpoints) ?_⟩
    simp [State.install, State.checkpoint, hfault, State.update, installed_memory]

theorem lookup_install {tm : TransferMeta} {after : After} {e : Env} {v : Nat} (hv : v ≠ w) :
    (s.install w p tm after e).checkpoints.lookup v = s.checkpoints.lookup v := by
  rcases install_checkpoints (s := s) (w := w) (o := p) tm after e with heq | heq
  · rw [heq]
  · rw [heq, AList.lookup_insert_ne hv]

theorem Firmly.install (h : Firmly s) {tm : TransferMeta} {after : After} {e : Env}
    (hnews : News (s.workers w).memory p tm.generation) :
    Climbs s (s.install w p tm after e) w (some p) e.fault := by
  have hinstalled : ∀ q, Firm w ((s.workers w).installed w p tm after e) (s.durable w) q :=
    fun q => (h w q).installed hnews
  have hdurable := durable_install (s := s) (w := w) (p := p) tm after e
  constructor
  · refine h.local (install_workers tm after e) (fun v hv => lookup_install hv) fun q => ?_
    rcases hdurable with heq | ⟨_, heq⟩
    · rw [heq]
      exact hinstalled q
    · rw [heq, ← installed_memory (w := w) (s.workers w) tm after e]
      exact (hinstalled q).put
  · intro o hkept
    refine raises_local (w := w) (fun v hv => lookup_install hv) ?_
    rcases hdurable with heq | ⟨hfault, heq⟩
    · rw [heq]
    · rw [heq]
      by_cases hpo : p = o
      · subst hpo
        rw [height_of_owned hold_owned hold_transit]
        exact (h w p).height_le_admitted hnews
      · obtain ⟨ho, ht⟩ := hold_of_ne (g := tm.generation) (s.workers w).memory (Ne.symm hpo)
        rw [height_congr ho ht]
        refine (h w o).height_le fun htaken => hfault (hkept (fun heq => hpo ?_) htaken)
        exact Option.some.inj heq

/-- A refused deed may turn the worker to the checkpoints: its own is yet to be read. -/
theorem Firmly.admitDeed (h : Firmly s) {tm : TransferMeta} {after : After} {e : Env} :
    Climbs s (s.admitDeed w p tm after e) w (some p) e.fault := by
  unfold State.admitDeed
  cases hgate : gate (s.workers w).memory p tm.generation with
  | accept => exact h.install ((h w p).news (gate_accept hgate))
  | refuse => exact h.goToIdle.quiet rfl
  | reconcile =>
    obtain ⟨howned, d, cur, htransit, hle⟩ := gate_reconcile hgate
    refine Firmly.quiet (h.goTo ?_) rfl
    rintro _ _ _ ⟨⟩
    refine ⟨howned, d, cur, htransit, hle, .inl ?_⟩
    change w ∈ s.checkpoints.keys
    rw [← AList.mem_keys, ← AList.lookup_isSome]
    have hmarker := ((h w p).synced howned).2.trans htransit
    cases hlookup : s.checkpoints.lookup w with
    | some cp => rfl
    | none => simp [State.durable, hlookup] at hmarker

/-- A put that renounces a held object, whatever becomes of its worker. -/
theorem Firmly.release (h : Firmly s) {worker : Worker ι} {g d : Nat}
    (hheld : (s.workers w).memory.owned p = some g)
    (hworkers : s'.workers = Function.update s.workers w worker)
    (hcheckpoints : s'.checkpoints =
      s.checkpoints.insert w (renounce (s.workers w).memory p d (g + 1)))
    (hfirm : ∀ q, Firm w worker (renounce (s.workers w).memory p d (g + 1)) q) (fault : Fault)
    (hlands : fault ≠ .failed) : Climbs s s' w (some p) fault := by
  have hdurable : s'.durable w = renounce (s.workers w).memory p d (g + 1) :=
    durable_of_insert hcheckpoints
  have hlookup : ∀ v, v ≠ w → s'.checkpoints.lookup v = s.checkpoints.lookup v :=
    fun v hv => lookup_of_insert hcheckpoints hv
  constructor
  · refine h.local hworkers hlookup fun q => ?_
    rw [hdurable]
    exact hfirm q
  · intro o hkept
    refine raises_local hlookup ?_
    rw [hdurable]
    by_cases hpo : p = o
    · subst hpo
      rw [height_of_transit renounce_owned renounce_transit]
      exact (h w p).height_le_renounced hheld
    · obtain ⟨ho, ht⟩ :=
        renounce_of_ne (d := d) (g := g + 1) (s.workers w).memory (Ne.symm hpo)
      rw [height_congr ho ht]
      refine (h w o).height_le fun htaken => hlands (hkept (fun heq => hpo ?_) htaken)
      exact Option.some.inj heq

/-- Whoever waited is bounced. -/
theorem Firm.cleared {worker : Worker ι} {cp : Checkpoint ι} (h : Firm w worker cp o) :
    Firm w { worker with queues := Function.update worker.queues p [] } cp o := by
  refine h.move rfl (fun hne => h.queued ?_) rfl h.reconciling
  by_cases hop : o = p
  · subst hop
    simp at hne
  · simpa [Function.update_of_ne hop] using hne

theorem Firmly.grant (h : Firmly s) (e : Env) :
    Climbs s (s.grant layout w p e) w (some p) e.fault := by
  unfold State.grant
  cases hqueue : (s.workers w).queues p with
  | nil => exact h.quiet rfl
  | cons taker rest =>
    have howned := (h w p).queued (by simp [hqueue])
    obtain ⟨g, hheld⟩ := Option.ne_none_iff_exists'.mp howned
    have hknown := known_of_owned hheld ((h w p).alone howned)
    cases hfault : e.fault with
    | failed =>
      simp only [State.release, hfault]
      exact Firmly.quiet (h.update fun q => (h w q).cleared) rfl
    | lost =>
      simp only [State.release, hfault, hknown, Option.getD_some]
      exact h.release hheld rfl rfl (fun q => ((h w q).takenBack hheld).cleared) _ (by decide)
    | none =>
      simp only [State.release, hfault, hknown, Option.getD_some]
      refine @Firmly.release _ _ _ _ _ _ h { s.workers w with
        memory := renounce (s.workers w).memory p taker (g + 1)
        metas := Function.update (s.workers w).metas p none
        queues := Function.update (s.workers w).queues p []
        await := .granting p taker (departure layout.hysteresis w ((s.workers w).metas p) (g + 1)
          e.now) } _ _ hheld ?_ rfl (fun q => ?_) _ (by decide)
      · simp [State.update]
      · exact (h w q).renounced (p := p) (d := taker) (g := g + 1) rfl (Function.update_self ..)
          (fun r hr => Function.update_of_ne hr ..) rfl fun _ _ _ heq => by cases heq

theorem Firmly.returnHome (h : Firmly s) (hidle : (s.workers w).await = .idle) (e : Env) :
    Climbs s (s.returnHome layout w p e) w (some p) e.fault := by
  unfold State.returnHome
  split
  case h_2 => exact h.quiet rfl
  case h_1 home hqueue hhome =>
    split_ifs with hw
    · exact h.quiet rfl
    obtain ⟨m, hm, hreturn⟩ := Option.bind_eq_some_iff.mp hhome
    have howned := (h w p).returning m home hm hreturn
    obtain ⟨g, hheld⟩ := Option.ne_none_iff_exists'.mp howned
    have hknown := known_of_owned hheld ((h w p).alone howned)
    cases hfault : e.fault with
    | failed =>
      simp only [State.release, hfault]
      exact h.quiet rfl
    | lost =>
      simp only [State.release, hfault, hknown, Option.getD_some]
      refine h.release (d := home) hheld ?_ ?_ (fun q => (h w q).takenBack hheld) _ (by decide)
      · exact (Function.update_eq_self ..).symm
      · rfl
    | none =>
      simp only [State.release, hfault, hknown, Option.getD_some]
      refine @Firmly.release _ _ _ _ _ _ h { s.workers w with
        memory := renounce (s.workers w).memory p home (g + 1)
        metas := Function.update (s.workers w).metas p none } _ _ hheld rfl rfl
        (fun q => ?_) _ (by decide)
      refine (h w q).renounced (p := p) (d := home) (g := g + 1) rfl hqueue (fun _ _ => rfl) rfl ?_
      intro tm after scan heq
      cases hidle.symm.trans heq

theorem Firmly.onClaim (h : Firmly s) {taker : Nat} {claim : Claim} {e : Env} :
    Climbs s (s.onClaim layout w p taker claim e) w (some p) e.fault := by
  unfold State.onClaim
  cases claim with
  | owned v g =>
    dsimp only
    split_ifs
    · exact h.admitDeed
    · exact h.goToIdle.quiet rfl
  | transit v g =>
    dsimp only
    split_ifs
    · exact h.admitDeed
    · exact h.goToIdle.quiet rfl
  | unclaimed =>
    dsimp only
    split_ifs
    · exact h.admitDeed
    · exact h.goToIdle.quiet rfl

theorem Firmly.take (h : Firmly s) {taker : Nat} : Firmly (s.take w p taker) := by
  unfold State.take
  dsimp only
  split_ifs with howned
  · refine h.update fun q => (h w q).move rfl (fun hne => ?_) rfl (h w q).reconciling
    by_cases hq : q = p
    · subst hq
      exact Option.isSome_iff_ne_none.mp howned
    · exact (h w q).queued (by simpa [Function.update_of_ne hq] using hne)
  · exact h
  · exact h.goToClaiming

theorem Firmly.unpark (h : Firmly s) : Firmly (s.unpark w p) :=
  h.update fun q => (h w q).move rfl (h w q).queued rfl (h w q).reconciling

omit [DecidableEq ι] in
theorem Firmly.park (h : Firmly s) : Firmly (s.park w p) :=
  h.update fun q => (h w q).move rfl (h w q).queued rfl (h w q).reconciling

theorem take_checkpoints {taker : Nat} : (s.take w p taker).checkpoints = s.checkpoints := by
  unfold State.take
  dsimp only
  split_ifs <;> rfl

omit [DecidableEq ι] in
theorem chase_same (i : Nat) : (s.chase i).workers = s.workers ∧
    (s.chase i).checkpoints = s.checkpoints := by
  unfold State.chase
  split
  · exact ⟨rfl, rfl⟩
  · split_ifs
    · dsimp only
      split
      · split_ifs <;> exact ⟨rfl, rfl⟩
      · split_ifs <;> exact ⟨rfl, rfl⟩
      · exact ⟨rfl, rfl⟩
    · exact ⟨rfl, rfl⟩

theorem Firmly.onTaken (h : Firmly s) (d : Deed ι) (e : Env) :
    Climbs s (s.onTaken d e) d.dest (some d.object) e.fault := by
  unfold State.onTaken
  split_ifs
  · exact h.quiet rfl
  · exact h.admitDeed

end Steps

/-- The object that a handler is about. -/
def Await.object : Await ι → Option ι
  | .idle => none
  | .claiming _ scan | .reconciling _ _ scan => some scan.object
  | .granting object _ _ => some object

/-- The worker whose checkpoint a step may put, and the object that the put is for. -/
def Move.writes (s : State ι) : Move ι → Option (Nat × Option ι)
  | .adopt i | .taken i => s.deeds[i]?.map fun d => (d.dest, some d.object)
  | .read w | .reply w _ => some (w, (s.workers w).await.object)
  | .grant w o | .returnHome w o => some (w, some o)
  | .checkpoint w => some (w, none)
  | .take .. | .park .. | .unpark .. | .startChase .. | .chase _ => none

/-- While a worker's checkpoint has a renunciation of the object that memory took back, no put of
that worker takes effect but one for the object itself. -/
def Upheld (o : ι) (s : State ι) (m : Move ι × Env) : Prop :=
  ∀ w p, m.1.writes s = some (w, p) → p ≠ some o →
    TakenBack (s.workers w).memory (s.durable w) o → m.2.fault = .failed

section Runs

variable {s s' : State ι} {w : Nat} {o : ι} {layout : Layout ι}

theorem firmly_initial : Firmly ({} : State ι) := fun _ _ => firm_initial

theorem goTo_memory {await : Await ι} :
    ((s.goTo w await).workers w).memory = (s.workers w).memory := by
  simp [State.goTo, State.update]

theorem Climbs.whenIdle {p : Option ι} {fault : Fault} (h : Firmly s)
    (hnext : (s.workers w).await = .idle → Climbs s s' w p fault) :
    Climbs s (s.whenIdle w s') w p fault := by
  unfold State.whenIdle
  split
  next hidle => exact hnext hidle
  · exact h.quiet rfl

/-- What a step of one worker comes to. -/
theorem Climbs.upheld {p : Option ι} {m : Move ι × Env} (h : Climbs s s' w p m.2.fault)
    (hwrites : m.1.writes s = some (w, p)) : Firmly s' ∧ (Upheld o s m → Raises s s' o) :=
  ⟨h.firmly, fun hupheld => h.raises o (hupheld w p hwrites)⟩

variable [DecidableEq ι]

theorem Firmly.read (h : Firmly s) (e : Env) :
    Climbs s (s.read layout w e) w (s.workers w).await.object e.fault := by
  unfold State.read
  split
  case h_1 taker scan hawait =>
    rw [hawait]
    split_ifs
    · exact h.onClaim
    · exact h.goToClaiming.quiet rfl
  case h_2 tm after scan hawait =>
    rw [hawait]
    split_ifs with htodo hconfirms
    · exact h.install (h.confirmed hawait htodo hconfirms)
    · exact h.goToIdle.quiet rfl
    · exact (h.readOn hawait htodo).quiet rfl
  case h_3 => exact h.quiet rfl
  case h_4 => exact h.quiet rfl

theorem Firmly.reply (h : Firmly s) (delivered : Bool) (e : Env) :
    Climbs s (s.reply w delivered e) w (s.workers w).await.object e.fault := by
  unfold State.reply
  split
  case h_2 => exact h.quiet rfl
  case h_1 object taker tm hawait =>
    rw [hawait]
    split_ifs
    · exact Firmly.quiet (h.goToIdle.same rfl rfl) rfl
    · exact h.goToIdle.admitDeed.after goTo_memory rfl

/-- A step leaves every worker firm; and it lowers no claim to the object, if it keeps the
renunciations of it that were taken back. -/
theorem firmly_step (layout : Layout ι) (o : ι) (h : Firmly s) (m : Move ι × Env) :
    Firmly (s.step layout m) ∧ (Upheld o s m → Raises s (s.step layout m) o) := by
  have hquiet {t : State ι} (ht : Firmly t) (heq : t.checkpoints = s.checkpoints) :
      Firmly t ∧ (Upheld o s m → Raises s t o) := ⟨ht, fun _ => raises_same heq⟩
  have hstill {t : State ι} {w : Nat} (ht : Climbs s t w none .failed) :
      Firmly t ∧ (Upheld o s m → Raises s t o) :=
    ⟨ht.firmly, fun _ => ht.raises o fun _ _ => rfl⟩
  obtain ⟨move, e⟩ := m
  unfold State.step
  cases move with
  | take w p taker =>
    dsimp only
    split_ifs
    · exact hquiet h rfl
    · exact hstill (.whenIdle h fun _ => h.take.quiet take_checkpoints)
  | adopt i =>
    dsimp only
    cases hd : s.deeds[i]? with
    | none => exact hquiet h rfl
    | some d =>
      exact (Climbs.whenIdle h fun _ => h.admitDeed).upheld (m := (.adopt i, e))
        (by simp [Move.writes, hd])
  | taken i =>
    dsimp only
    cases hd : s.deeds[i]? with
    | none => exact hquiet h rfl
    | some d =>
      have htaken : Climbs s (s.whenIdle d.dest ((s.unpark d.dest d.object).onTaken d e)) d.dest
          (some d.object) e.fault :=
        .whenIdle h fun _ => (h.unpark.onTaken d e).after (unpark_memory d.dest) rfl
      exact htaken.upheld (m := (.taken i, e)) (by simp [Move.writes, hd])
  | park w p => exact hstill (.whenIdle h fun _ => h.park.quiet rfl)
  | unpark w p => exact hstill (.whenIdle h fun _ => h.unpark.quiet rfl)
  | read w => exact (h.read e).upheld (m := (.read w, e)) rfl
  | grant w p =>
    exact (Climbs.whenIdle h fun _ => h.grant e).upheld (m := (.grant w p, e)) rfl
  | reply w delivered => exact (h.reply delivered e).upheld (m := (.reply w delivered, e)) rfl
  | returnHome w p =>
    exact (Climbs.whenIdle h fun hidle => h.returnHome hidle e).upheld (m := (.returnHome w p, e))
      rfl
  | checkpoint w => exact (h.checkpoint e.fault).upheld (m := (.checkpoint w, e)) rfl
  | startChase w p => exact hquiet (h.same rfl rfl) rfl
  | chase i => exact hquiet (h.same (chase_same i).1 (chase_same i).2) (chase_same i).2

end Runs

/-- A `durable_claim` under way among the steps of the workers. -/
structure Observed (ι : Type) where
  state : State ι
  scan : Task WorkerKey (WorkerBlob ι) Unit Claim

/-- A step of the workers, or the next operation of the scan, with the order in which the store
lists. -/
inductive Turn (ι : Type) where
  | handoff (m : Move ι × Env)
  | scan (order : List WorkerKey)

def State.has (s : State ι) : WorkerKey → Bool
  | .checkpoint w => decide (w ∈ s.checkpoints)
  | .other _ => true

/-- A listing of `_worker/`: the checkpoints and any other names, in any order. -/
def State.listing (s : State ι) (order : List WorkerKey) : List WorkerKey :=
  order.dedup.filter s.has ++ (s.checkpoints.keys.map .checkpoint).filter (· ∉ order)

/-- What the store answers to a scan; no read fails. -/
def State.replies (s : State ι) (order : List WorkerKey) :
    (op : NodeOp WorkerKey (WorkerBlob ι) Unit) → op.Answer :=
  scanReplies s.durable (fun w => if (s.checkpoints.lookup w).isSome then .whole else .missing)
    (.ok (s.listing order))

def State.serve (s : State ι) (order : List WorkerKey) :
    Task WorkerKey (WorkerBlob ι) Unit Claim → Task WorkerKey (WorkerBlob ι) Unit Claim
  | .ret claim => .ret claim
  | .call op k => k (s.replies order op)

def Observed.step [DecidableEq ι] (layout : Layout ι) (c : Observed ι) : Turn ι → Observed ι
  | .handoff m => { c with state := c.state.step layout m }
  | .scan order => { c with scan := c.state.serve order c.scan }

/-- The renunciations of the object that were taken back are kept while the scan is under way. -/
def Observed.Upholds (o : ι) (c : Observed ι) : Turn ι → Prop
  | .handoff m => Upheld o c.state m
  | .scan _ => True

/-- What the scan answers ranks no lower than any claim on the object that was durable at its start,
and is unclaimed only if there was none. -/
def Observed.NoOlder (start : State ι) (o : ι) (c : Observed ι) : Prop :=
  ∀ answer, c.scan = .ret answer →
    (∀ w, ∀ claim ∈ (start.durable w).claims o w, claim.rank ≤ answer.rank) ∧
      (answer = .unclaimed → ∀ w, (start.durable w).claims o w = [])

section Scan

variable {s start : State ι} {o : ι} {layout : Layout ι} {order keys : List WorkerKey}
  {best : Option Claim}

theorem mem_listing {w : Nat} (h : w ∈ s.checkpoints) : .checkpoint w ∈ s.listing order := by
  refine List.mem_append.mpr ?_
  by_cases hmem : WorkerKey.checkpoint w ∈ order
  · left
    exact List.mem_filter.mpr ⟨List.mem_dedup.mpr hmem, by simp [State.has, h]⟩
  · right
    refine List.mem_filter.mpr ⟨List.mem_map.mpr ⟨w, h, rfl⟩, by simpa using hmem⟩

theorem height_durable_of_notMem {w : Nat} (h : w ∉ s.checkpoints) :
    height (s.durable w) o = ⊥ := by
  rw [State.durable, AList.lookup_eq_none.mpr h]
  rfl

theorem replies_get (w : Nat) : s.replies order (.store (.get (.checkpoint w))) =
    .ok ((s.checkpoints.lookup w).map WorkerBlob.checkpoint) := by
  unfold State.replies scanReplies State.durable
  dsimp only
  cases s.checkpoints.lookup w <;> rfl

theorem serve_get (key : WorkerKey)
    (f : Except Error (Option (WorkerBlob ι)) → Task WorkerKey (WorkerBlob ι) Unit Claim) :
    s.serve order ((Store.get key).bind f) = f (s.replies order (.store (.get key))) := rfl

/-- The next operation of the loop over the listed keys reads a checkpoint, unless none is left. -/
theorem serve_claimScan (s : State ι) (order keys : List WorkerKey) (best : Option Claim) :
    (s.serve order (claimScan o keys best) = claimScan o keys best ∧
      ∀ w, .checkpoint w ∉ keys) ∨
    ∃ w rest, (∀ v, .checkpoint v ∈ keys → v = w ∨ .checkpoint v ∈ rest) ∧
      s.serve order (claimScan o keys best) =
        claimScan o rest (((s.durable w).claims o w).foldl Claim.consider best) := by
  induction keys with
  | nil => exact .inl ⟨rfl, nofun⟩
  | cons key keys ih =>
    cases key with
    | other n =>
      rcases ih with ⟨heq, hnone⟩ | ⟨w, rest, hrest, heq⟩
      · exact .inl ⟨heq, fun w hw => hnone w (by simpa using hw)⟩
      · exact .inr ⟨w, rest, fun v hv => hrest v (by simpa using hv), heq⟩
    | checkpoint w =>
      refine .inr ⟨w, keys, fun v hv => by simpa using hv, ?_⟩
      rw [claimScan, serve_get, replies_get]
      cases hlookup : s.checkpoints.lookup w with
      | none => simp [State.durable, hlookup, Checkpoint.claims]
      | some cp => simp [State.durable, hlookup]

theorem claimScan_ret {answer : Claim}
    (h : (claimScan o keys best : Task WorkerKey (WorkerBlob ι) Unit Claim) = .ret answer) :
    (∀ w, .checkpoint w ∉ keys) ∧ answer = best.getD .unclaimed := by
  induction keys with
  | nil =>
    cases h
    exact ⟨nofun, rfl⟩
  | cons key keys ih =>
    cases key with
    | other n =>
      obtain ⟨hnone, hanswer⟩ := ih h
      exact ⟨fun w hw => hnone w (by simpa using hw), hanswer⟩
    | checkpoint w => cases h

/-- What holds of a scan while it is under way: what it has yet to read of the claims at its start,
or something higher, is still there to be read. -/
structure Sees (start : State ι) (o : ι) (c : Observed ι) : Prop where
  firmly : Firmly c.state
  raises : Raises start c.state o
  scanning : c.scan = durableClaim o ∨ ∃ keys best, c.scan = claimScan o keys best ∧
    best ≠ some .unclaimed ∧
    ∀ w, height (start.durable w) o ≤ bestRank best ∨ .checkpoint w ∈ keys

theorem sees_start (h : Firmly start) : Sees start o ⟨start, durableClaim o⟩ :=
  ⟨h, .refl start o, .inl rfl⟩

theorem Sees.step [DecidableEq ι] {c : Observed ι} (h : Sees start o c) (turn : Turn ι)
    (hupholds : c.Upholds o turn) : Sees start o (c.step layout turn) := by
  cases turn with
  | handoff m =>
    obtain ⟨hfirmly, hraises⟩ := firmly_step layout o h.firmly m
    exact ⟨hfirmly, fun w => (h.raises w).trans (hraises hupholds w), h.scanning⟩
  | scan order =>
    refine ⟨h.firmly, h.raises, .inr ?_⟩
    rcases h.scanning with hstart | ⟨keys, best, hscan, hreal, hahead⟩
    · refine ⟨c.state.listing order, none, ?_, nofun, fun w => ?_⟩
      · change c.state.serve order c.scan = _
        rw [hstart]
        rfl
      · by_cases hw : w ∈ c.state.checkpoints
        · exact .inr (mem_listing hw)
        · left
          exact (h.raises w).trans (height_durable_of_notMem hw).le
    · change ∃ keys best, c.state.serve order c.scan = _ ∧ _
      rw [hscan]
      rcases serve_claimScan c.state order keys best with ⟨heq, _⟩ | ⟨w, rest, hrest, heq⟩
      · exact ⟨keys, best, heq, hreal, hahead⟩
      · refine ⟨rest, _, heq, fun hunclaimed => ?_, fun v => ?_⟩
        · rcases (rank_foldl_consider _ _).2 _ hunclaimed with hmem | hbest
          · rcases mem_claims.mp hmem with ⟨_, _, ⟨⟩⟩ | ⟨_, _, _, ⟨⟩⟩
          · exact hreal hbest
        · obtain ⟨hkept, hread⟩ := bestRank_foldl (c.state.durable w) (o := o) (v := w) best
          rcases hahead v with hle | hmem
          · exact .inl (hle.trans hkept)
          · rcases hrest v hmem with rfl | hmem
            · exact .inl ((h.raises v).trans hread)
            · exact .inr hmem

theorem Sees.noOlder {c : Observed ι} (h : Sees start o c) : c.NoOlder start o := by
  intro answer hanswer
  rcases h.scanning with hstart | ⟨keys, best, hscan, hreal, hahead⟩
  · cases hstart.symm.trans hanswer
  · obtain ⟨hread, rfl⟩ := claimScan_ret (hscan.symm.trans hanswer)
    have hrank : ∀ w, ∀ claim ∈ (start.durable w).claims o w,
        (claim.rank : WithBot _) ≤ bestRank best := fun w claim hclaim =>
      (rank_le_height hclaim).trans ((hahead w).resolve_right (hread w))
    cases best with
    | none =>
      have hempty : ∀ w, (start.durable w).claims o w = [] := fun w =>
        List.eq_nil_iff_forall_not_mem.mpr fun claim hclaim =>
          WithBot.not_coe_le_bot _ (hrank w claim hclaim)
      exact ⟨fun w claim hclaim => by simp [hempty w] at hclaim, fun _ => hempty⟩
    | some b =>
      exact ⟨fun w claim hclaim => WithBot.coe_le_coe.mp (hrank w claim hclaim),
        fun hunclaimed => absurd (congrArg some hunclaimed) hreal⟩

end Scan

/-- A claim scan is never older than its start, whatever handoffs go on meanwhile, as long as the
renunciations that were taken back are kept. -/
theorem claim_scan_no_older [DecidableEq ι] (layout : Layout ι) (before : List (Move ι × Env))
    (o : ι) (turns : List (Turn ι))
    (hupheld : Runs.Guarded (Observed.step layout) (Observed.Upholds o)
      ⟨Runs.run (State.step layout) {} before, durableClaim o⟩ turns) :
    Runs.Throughout (Observed.step layout)
      (Observed.NoOlder (Runs.run (State.step layout) {} before) o)
      ⟨Runs.run (State.step layout) {} before, durableClaim o⟩ turns := by
  have hfirmly : Firmly (Runs.run (State.step layout) {} before) :=
    (Runs.invariant (I := Firmly) (fun _ m h => (firmly_step layout o h m).1) (fun _ h => h)
      firmly_initial before).last
  exact Runs.Guarded.throughout (fun _ turn h hupholds => h.step turn hupholds)
    (fun _ h => h.noOlder) (sees_start hfirmly) hupheld

/-- Worker 0 is home to all. It releases object 0 to worker 1; the put takes effect and reports an
error, and memory takes the renunciation back. -/
def lostRelease : List (Move Nat × Env) :=
  [(.take 0 0 1, {}), (.read 0, {}), (.grant 0 0, { fault := .lost })]

/-- Between the listing and the read worker 1 finds the marker, and admits the object. -/
def healing : List (Turn Nat) :=
  [.scan [], .handoff (.take 1 0 2, {}), .handoff (.read 1, {}), .handoff (.read 1, {}), .scan []]

theorem claim_scan_no_older_healing :
    (Runs.run (Observed.step ⟨fun _ => 0, 0⟩)
      ⟨Runs.run (State.step ⟨fun _ => 0, 0⟩) {} lostRelease, durableClaim 0⟩ healing).scan =
        .ret (.transit 1 2) ∧
      Runs.Throughout (Observed.step ⟨fun _ => 0, 0⟩)
        (Observed.NoOlder (Runs.run (State.step ⟨fun _ => 0, 0⟩) {} lostRelease) 0)
        ⟨Runs.run (State.step ⟨fun _ => 0, 0⟩) {} lostRelease, durableClaim 0⟩ healing := by
  refine ⟨rfl, claim_scan_no_older ⟨fun _ => 0, 0⟩ lostRelease 0 healing
    ⟨trivial, ?_, ?_, ?_, trivial, trivial⟩⟩
  · rintro w p ⟨⟩
  · rintro w p ⟨⟩ hp
    exact absurd rfl hp
  · rintro w p ⟨⟩ hp
    exact absurd rfl hp

/-- Worker 0 puts its checkpoint for another object before the scan reads it. -/
def overwriting : List (Turn Nat) :=
  [.scan [], .handoff (.checkpoint 0, {}), .scan []]

theorem claim_scan_older_than_start :
    ¬ Runs.Throughout (Observed.step ⟨fun _ => 0, 0⟩)
      (Observed.NoOlder (Runs.run (State.step ⟨fun _ => 0, 0⟩) {} lostRelease) 0)
      ⟨Runs.run (State.step ⟨fun _ => 0, 0⟩) {} lostRelease, durableClaim 0⟩ overwriting := by
  intro h
  have hanswer : (Runs.run (Observed.step ⟨fun _ => 0, 0⟩)
      ⟨Runs.run (State.step ⟨fun _ => 0, 0⟩) {} lostRelease, durableClaim 0⟩ overwriting).scan =
      .ret (.owned 0 1) := rfl
  have hle := (h.last _ hanswer).1 0 (.transit 1 2) List.mem_cons_self
  exact absurd hle (by decide)

end Fafo.Ownership
