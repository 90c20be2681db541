import Fafo.Soundness
import Fafo.Library.Runs

/-! Ordered acquisition does not deadlock, as long as no one stands in two queues at once. -/
namespace Fafo.Acquire

open Ownership (TransferMeta)

variable {ι : Type} [LinearOrder ι] {site : Site ι} {e : Env ι} {s : State ι}
  {home : Nat → ι → Prop} {w t : Nat} {object : ι}

/-- A transaction that enters its own worker's queue has no take of the object in a queue, except at
the object's home. -/
def EntersFree (home : Nat → ι → Prop) (site : Site ι) (e : Env ι) (s : State ι) (w : Nat) : Prop :=
  ∀ t p object, (s.workers w).ready.bind List.getLast? = some t →
    (s.workers w).needsService = [] → (s.workers w).parked t = some p →
    p.frontier = some object → s.isOwner site e w object = true →
    .txn t ∉ (s.workers w).queues object →
    ∀ k ∈ s.tasks, k.worker = w → k.txn = t → k.object = object → Asking s k →
      home w object

/-- The worker queues a take of the object: it owns it, or is to adopt it. -/
def Queues (site : Site ι) (e : Env ι) (s : State ι) (w : Nat) (object : ι) : Prop :=
  ((s.workers w).memory.owned object).isSome = true ∨ s.takingIt w object = false ∧
    ∃ generation, State.adoptGeneration site w object (e.claim object) = some generation ∧
      s.accepts site e w object ⟨false, w, none, generation⟩ = true

/-- A take that enters a queue is not from a transaction that stands in its own worker's queue of
the object, except at the object's home. -/
def QueuesFree (home : Nat → ι → Prop) (site : Site ι) (e : Env ι) (s : State ι) (a : Ask ι) :
    Prop :=
  (s.workers a.dest).ready = none → Queues site e s a.dest a.object →
    ∀ k ∈ s.tasks, k.worker = a.taker → k.object = a.object →
      (∃ owner attempt, k.phase = .awaiting owner a.resp attempt) → Standing s k →
        home k.worker k.object

/-- No transaction comes to wait in two queues of an object, except where one is `home`. -/
def SingleBut (home : Nat → ι → Prop) (site : Site ι) (s : State ι) (m : Move ι × Env ι) : Prop :=
  match m.1 with
  | .pump w => EntersFree home site m.2 s w
  | .take i => ∀ a, s.asks[i]? = some a → QueuesFree home site m.2 s a
  | _ => True

/-- No transaction comes to wait in two queues of an object, except where one is at its home. -/
def Single (site : Site ι) : State ι → Move ι × Env ι → Prop := SingleBut (Home site) site

theorem Sound.initial : Sound home Nobody ({} : State ι) where
  nodup _ _ := List.nodup_nil
  entry _ _ _ h := by cases h
  held _ _ _ h := by cases h
  fresh _ _ _ h := by cases h
  foreign _ _ _ _ h := by cases h
  asked _ h := by cases h
  asks_nodup := List.nodup_nil
  tasks_nodup := List.nodup_nil
  taking _ h := by cases h
  apart _ h := by cases h

theorem Parked.frontier_mem_reach (p : Parked ι) (hf : p.frontier = some object) :
    object ∈ p.reach := by
  obtain ⟨hlt, rfl⟩ := List.getElem?_eq_some_iff.mp hf
  exact List.mem_take_iff_getElem.mpr ⟨p.acquired, by omega, rfl⟩

theorem id_txn_mem {queue : List Entry} :
    (Entry.txn t).id ∈ queue.map Entry.id ↔ .txn t ∈ queue := by
  refine ⟨fun h => ?_, List.mem_map_of_mem⟩
  obtain ⟨a, ha, hid⟩ := List.mem_map.mp h
  cases a with
  | txn u =>
    cases hid
    exact ha
  | take taker resp => cases hid

theorem id_take_mem {queue : List Entry} {taker resp : Nat} :
    (Entry.take taker resp).id ∈ queue.map Entry.id ↔ ∃ taker, .take taker resp ∈ queue := by
  refine ⟨fun h => ?_, fun ⟨taker', h⟩ => List.mem_map.mpr ⟨.take taker' resp, h, rfl⟩⟩
  obtain ⟨a, ha, hid⟩ := List.mem_map.mp h
  cases a with
  | txn u => cases hid
  | take taker' resp' =>
    cases hid
    exact ⟨taker', ha⟩

/-- Only the flags of a parked transaction change. -/
theorem Sound.mark (hs : Sound home Nobody s) {p : Parked ι} (p' : Parked ι)
    (hp : (s.workers w).parked t = some p) (hparts : p'.participants = p.participants)
    (hacquired : p'.acquired = p.acquired)
    (htaking : ∀ k ∈ s.tasks, k.worker = w → k.txn = t → p'.taking = true) :
    Sound home Nobody (s.setParked w t (some p')) := by
  have hheld := hs.held w t p hp
  refine hs.repark hp ?_ ?_ fun k hk hw ht => ⟨htaking k hk hw ht, ?_⟩
  · rw [Parked.reach, Parked.reach, hparts, hacquired]
    exact fun o ho => ho
  · rwa [hparts, hacquired]
  · rw [Parked.frontier, Parked.frontier, hparts, hacquired]
    exact id

/-- The transaction has a task that takes, if it has one. -/
theorem Sound.taking_of_task (hs : Sound home Nobody s) {p : Parked ι}
    (hp : (s.workers w).parked t = some p) {k : TakeTask ι} (hk : k ∈ s.tasks)
    (hw : k.worker = w) (ht : k.txn = t) : p.taking = true ∧ k.object ∈ p.reach := by
  subst hw ht
  exact (hs.taking k hk).2 p hp

/-- A parked transaction enters a queue within its reach. -/
theorem Sound.push_txn (hs : Sound home Nobody s) {p : Parked ι}
    (hp : (s.workers w).parked t = some p) (hreach : object ∈ p.reach)
    (hnew : .txn t ∉ (s.workers w).queues object)
    (hfree : ∀ k ∈ s.tasks, k.worker = w → k.txn = t → k.object = object → Asking s k →
      home w object) :
    Sound home Nobody (s.setQueue w object ((s.workers w).queues object ++ [.txn t])) := by
  refine hs.push (fun hid => hnew (id_txn_mem.mp hid)) ?_ (fun _ _ h => by cases h) ?_
  · intro u hu
    cases hu
    exact ⟨p, hp, hreach⟩
  · intro k hk hasking hstanding
    have hbefore : Asking s k := by
      obtain ⟨owner, resp, attempt, x, hphase, hmem⟩ := hasking
      refine ⟨owner, resp, attempt, x, hphase, ?_⟩
      rw [setQueue_queues] at hmem
      split at hmem
      · next h =>
        rw [h.1, h.2]
        simpa using hmem
      · exact hmem
    obtain ⟨q, hq, hqf, hmem⟩ := hstanding
    rw [setQueue_parked] at hq
    rw [setQueue_queues] at hmem
    split at hmem
    · next h =>
      rcases List.mem_append.mp hmem with hold | hlast
      · refine hs.apart k hk hbefore ⟨q, hq, hqf, ?_⟩
        rw [h.1, h.2]
        exact hold
      · have ht : k.txn = t := by simpa using hlast
        rw [h.1, h.2]
        exact hfree k hk h.1 ht h.2 hbefore
    · exact hs.apart k hk hbefore ⟨q, hq, hqf, hmem⟩

theorem Sound.enqueue (hs : Sound home Nobody s) {p : Parked ι}
    (hp : (s.workers w).parked t = some p) (hf : p.frontier = some object)
    (hfree : .txn t ∉ (s.workers w).queues object → ∀ k ∈ s.tasks, k.worker = w → k.txn = t →
      k.object = object → Asking s k → home w object) :
    Sound home Nobody (s.enqueue w t object) := by
  unfold State.enqueue
  dsimp only
  split
  · exact hs
  · next hnew => exact hs.push_txn hp (p.frontier_mem_reach hf) hnew (hfree hnew)

theorem parked_enqueue (v : Nat) :
    ((s.enqueue w t object).workers v).parked = (s.workers v).parked := by
  unfold State.enqueue
  dsimp only
  split
  · rfl
  · exact setQueue_parked ..

/-- The transaction holds another head. -/
theorem Sound.gain (hs : Sound home Nobody s) {p : Parked ι}
    (hp : (s.workers w).parked t = some p) (hf : p.frontier = some object)
    (hhead : ((s.workers w).queues object).head? = some (.txn t)) :
    Sound home Nobody (s.setParked w t (some { p with acquired := p.acquired + 1 })) := by
  have hlt : p.acquired < p.participants.val.length := (List.getElem?_eq_some_iff.mp hf).1
  have hobject : p.participants.val[p.acquired] = object := (List.getElem?_eq_some_iff.mp hf).2
  refine hs.repark hp ?_ (fun o ho => ?_) fun k hk hw ht => ?_
  · exact (List.take_sublist_take_left (Nat.le_succ _)).subset
  · rw [List.take_succ_eq_append_getElem hlt] at ho
    rcases List.mem_append.mp ho with hold | hlast
    · exact hs.held w t p hp o hold
    · rw [List.mem_singleton.mp hlast, hobject]
      exact hhead
  · -- what it takes is behind its new frontier
    obtain ⟨htaking, hreach⟩ := hs.taking_of_task hp hk hw ht
    refine ⟨htaking, fun hnext => ?_⟩
    obtain ⟨hlt', heq⟩ := List.getElem?_eq_some_iff.mp hnext
    obtain ⟨i, hi, hio⟩ := List.mem_take_iff_getElem.mp hreach
    have hless := List.pairwise_iff_getElem.mp p.participants.property i (p.acquired + 1)
      (by omega) hlt' (by omega)
    rw [hio] at hless
    exact absurd heq (ne_of_gt hless)

theorem Sound.acquire (hs : Sound home Nobody s) {p : Parked ι}
    (hp : (s.workers w).parked t = some p) (hf : p.frontier = some object)
    (hfree : s.isOwner site e w object = true → .txn t ∉ (s.workers w).queues object →
      ∀ k ∈ s.tasks, k.worker = w → k.txn = t → k.object = object → Asking s k →
        home w object) :
    Sound home Nobody (s.acquire site e w t p object).2 := by
  unfold State.acquire
  split
  · next howner =>
    have hentered := hs.enqueue hp hf (hfree howner)
    have hp' : ((s.enqueue w t object).workers w).parked t = some p := by
      rw [parked_enqueue]
      exact hp
    dsimp only
    split
    · exact hentered
    next hhead =>
    split
    · exact hentered.gain hp' hf (Classical.not_not.mp hhead)
    split
    · exact hentered
    · refine Sound.trims (hentered.mark { p with activating := true } hp' rfl rfl
        fun k hk hw ht => (hentered.taking_of_task hp' hk hw ht).1) ?_
      exact .same rfl rfl rfl rfl
  · split
    · exact hs
    next htaking =>
    have hno : ∀ k ∈ s.tasks, k.worker = w → k.txn ≠ t :=
      fun k hk hw ht => htaking (hs.taking_of_task hp hk hw ht).1
    have hmarked : Sound home Nobody (s.setParked w t (some { p with taking := true })) :=
      hs.mark _ hp rfl rfl fun _ _ _ _ => rfl
    refine hmarked.retask ?_ (fun k hk => ?_) le_rfl hs.asks_nodup fun a ha => .inl ha
    · rw [List.map_append]
      refine List.Nodup.append hs.tasks_nodup (List.nodup_singleton _) ?_
      simp only [List.map_cons, List.map_nil, List.disjoint_singleton]
      intro hmem
      obtain ⟨k, hk, heq⟩ := List.mem_map.mp hmem
      exact hno k hk (Prod.mk.inj heq).1 (Prod.mk.inj heq).2
    · rcases List.mem_append.mp hk with hold | hnew
      · exact .inl hold
      · obtain rfl := List.mem_singleton.mp hnew
        refine .inr ⟨?_, ?_, fun q hq => ?_⟩
        · rintro ⟨_, _, _, _, hphase, _⟩
          cases hphase
        · rw [setParked_nextTxn]
          exact hs.fresh w t p hp
        · rw [setParked_parked, if_pos ⟨rfl, rfl⟩] at hq
          cases hq
          exact ⟨rfl, p.frontier_mem_reach hf⟩

theorem Sound.pump (hs : Sound home Nobody s) (hfree : EntersFree home site e s w) :
    Sound home Nobody (s.pump site e w) := by
  unfold State.pump
  dsimp only
  split
  · exact hs
  next ready hready =>
  split
  · exact hs
  split
  · next hquiet =>
    have hquiet := List.isEmpty_iff.mp hquiet
    split
    · exact hs.trims (trims_setReady w s _)
    next t htop =>
    unfold State.advance
    split
    · exact hs.trims (trims_setReady w s _)
    next p hp =>
    split
    · next hf => exact (hs.runAndComplete hp hf).trims (trims_setReady w _ _)
    · next object hf =>
      refine Sound.trims (hs.acquire (e := e) hp hf fun howner hnew => ?_) (trims_setReady w _ _)
      exact hfree t p object (by rw [hready]; exact htop) hquiet hp hf howner hnew
  · refine hs.trims (Trims.trans (Trims.trans ?_
      (trims_gather (fun o _ => trims_serviceFront site w o) _ _)) (trims_setReady w _ _))
    exact trims_update w rfl

section Submitted

variable (s : State ι) (w v u : Nat) (participants : Participants ι) (readOnly : Bool)

theorem submit_queues :
    ((s.submit w participants readOnly).workers v).queues = (s.workers v).queues := by
  by_cases hv : v = w
  · subst hv
    simp [State.submit, State.setReady, State.setParked]
  · simp [State.submit, State.setReady, State.setParked, hv]

theorem submit_parked : ((s.submit w participants readOnly).workers v).parked u =
    if v = w ∧ u = (s.workers w).nextTxn then some { participants, readOnly }
    else (s.workers v).parked u := by
  by_cases hv : v = w
  · subst hv
    by_cases hu : u = (s.workers v).nextTxn
    · simp [State.submit, State.setReady, State.setParked, hu]
    · simp [State.submit, State.setReady, State.setParked, hu]
  · simp [State.submit, State.setReady, State.setParked, hv]

theorem submit_nextTxn : ((s.submit w participants readOnly).workers v).nextTxn =
    if v = w then (s.workers v).nextTxn + 1 else (s.workers v).nextTxn := by
  by_cases hv : v = w
  · subst hv
    simp [State.submit, State.setReady, State.setParked]
  · simp [State.submit, State.setReady, State.setParked, hv]

end Submitted

theorem Sound.submit (hs : Sound home Nobody s) (participants : Participants ι) (readOnly : Bool) :
    Sound home Nobody (s.submit w participants readOnly) := by
  have hold : ∀ v u q, (s.workers v).parked u = some q →
      ((s.submit w participants readOnly).workers v).parked u = some q := by
    intro v u q hq
    rw [submit_parked, if_neg]
    · exact hq
    · rintro ⟨rfl, rfl⟩
      exact absurd (hs.fresh v _ q hq) (lt_irrefl _)
  have hnext : ∀ v, (s.workers v).nextTxn ≤
      ((s.submit w participants readOnly).workers v).nextTxn := by
    intro v
    rw [submit_nextTxn]
    split <;> omega
  -- no task is the new transaction's
  have htask : ∀ k ∈ s.tasks, ∀ q,
      ((s.submit w participants readOnly).workers k.worker).parked k.txn = some q →
      (s.workers k.worker).parked k.txn = some q := by
    intro k hk q hq
    rw [submit_parked, if_neg] at hq
    · exact hq
    · rintro ⟨hw, ht⟩
      have hlt := (hs.taking k hk).1
      rw [hw] at hlt
      omega
  refine ⟨fun v o => by rw [submit_queues]; exact hs.nodup v o, fun v u o hmem => ?_,
    fun v u q hq o ho => ?_, fun v u q hq => ?_, fun v o taker resp hmem => ?_, fun a ha => ?_,
    hs.asks_nodup, hs.tasks_nodup, fun k hk => ?_, fun k hk hasking hstanding => ?_⟩
  · rw [submit_queues] at hmem
    obtain ⟨q, hq, ho⟩ := (hs.entry v u o hmem).resolve_left id
    exact .inr ⟨q, hold v u q hq, ho⟩
  · rw [submit_queues]
    rw [submit_parked] at hq
    split at hq
    · cases hq
      simp at ho
    · exact hs.held v u q hq o ho
  · rw [submit_parked] at hq
    split at hq
    · next h =>
      rw [submit_nextTxn, if_pos h.1, h.1, h.2]
      exact Nat.lt_succ_self _
    · exact (hs.fresh v u q hq).trans_le (hnext v)
  · rw [submit_queues] at hmem
    exact hs.foreign v o taker resp hmem
  · obtain ⟨hne, hlt, hout⟩ := hs.asked a ha
    refine ⟨hne, hlt, fun v o taker hmem => ?_⟩
    rw [submit_queues] at hmem
    exact hout v o taker hmem
  · obtain ⟨hlt, htaking⟩ := hs.taking k hk
    exact ⟨hlt.trans_le (hnext _), fun q hq => htaking q (htask k hk q hq)⟩
  · refine hs.apart k hk ?_ ?_
    · obtain ⟨owner, resp, attempt, x, hphase, hmem⟩ := hasking
      rw [submit_queues] at hmem
      exact ⟨owner, resp, attempt, x, hphase, hmem⟩
    · obtain ⟨q, hq, hqf, hmem⟩ := hstanding
      rw [submit_queues] at hmem
      exact ⟨q, htask k hk q hq, hqf, hmem⟩

theorem Sound.boot (hs : Sound home Nobody s) (memory : Checkpoint ι) :
    Sound home Nobody (s.boot w memory) := by
  have hself : ∀ v, v = w → (s.boot w memory).workers v = { memory } := by
    rintro v rfl
    exact Function.update_self ..
  have hother : ∀ v, v ≠ w → (s.boot w memory).workers v = s.workers v :=
    fun v hv => Function.update_of_ne hv ..
  have hsub : ∀ v o, (((s.boot w memory).workers v).queues o).Sublist
      ((s.workers v).queues o) := by
    intro v o
    by_cases hv : v = w
    · rw [hself v hv]
      exact List.nil_sublist _
    · rw [hother v hv]
  have hparked : ∀ v u q, ((s.boot w memory).workers v).parked u = some q → v ≠ w := by
    intro v u q hq hv
    rw [hself v hv] at hq
    cases hq
  have htask : ∀ k ∈ (s.boot w memory).tasks, k ∈ s.tasks ∧ k.worker ≠ w := by
    intro k hk
    simpa [State.boot] using hk
  refine ⟨fun v o => (hs.nodup v o).sublist ((hsub v o).map _), fun v u o hmem => ?_,
    fun v u q hq o ho => ?_, fun v u q hq => ?_, fun v o taker resp hmem => ?_, fun a ha => ?_,
    hs.asks_nodup, hs.tasks_nodup.sublist (List.filter_sublist.map _), fun k hk => ?_,
    fun k hk hasking hstanding => ?_⟩
  · by_cases hv : v = w
    · rw [hself v hv] at hmem
      cases hmem
    · rw [hother v hv] at hmem ⊢
      exact hs.entry v u o hmem
  · have hv := hparked v u q hq
    rw [hother v hv] at hq ⊢
    exact hs.held v u q hq o ho
  · have hv := hparked v u q hq
    rw [hother v hv] at hq ⊢
    exact hs.fresh v u q hq
  · exact hs.foreign v o taker resp ((hsub v o).subset hmem)
  · obtain ⟨hne, hlt, hout⟩ := hs.asked a ha
    exact ⟨hne, hlt, fun v o taker hmem => hout v o taker ((hsub v o).subset hmem)⟩
  · obtain ⟨hold, hne⟩ := htask k hk
    rw [hother _ hne]
    exact hs.taking k hold
  · obtain ⟨hold, hne⟩ := htask k hk
    refine hs.apart k hold ?_ ?_
    · obtain ⟨owner, resp, attempt, x, hphase, hmem⟩ := hasking
      exact ⟨owner, resp, attempt, x, hphase, (hsub x k.object).subset hmem⟩
    · obtain ⟨q, hq, hqf, hmem⟩ := hstanding
      rw [hother _ hne] at hq hmem
      exact ⟨q, hq, hqf, hmem⟩

/-- A take enters a queue. -/
theorem Sound.push_take (hs : Sound home Nobody s) {taker resp : Nat} (hne : taker ≠ w)
    (hlt : resp < s.nextResp) (hasks : ∀ b ∈ s.asks, b.resp ≠ resp)
    (hnew : ∀ taker, .take taker resp ∉ (s.workers w).queues object)
    (hfree : ∀ k ∈ s.tasks, k.worker = taker → k.object = object →
      (∃ owner attempt, k.phase = .awaiting owner resp attempt) → Standing s k →
        home k.worker k.object) :
    Sound home Nobody
      (s.setQueue w object ((s.workers w).queues object ++ [.take taker resp])) := by
  refine hs.push ?_ (fun _ h => by cases h) ?_ fun k hk hasking hstanding => ?_
  · rw [id_take_mem]
    rintro ⟨taker', hmem⟩
    exact hnew taker' hmem
  · intro taker' resp' h
    cases h
    exact ⟨hne, hlt, hasks⟩
  · have hbefore : Standing s k := by
      obtain ⟨q, hq, hqf, hmem⟩ := hstanding
      rw [setQueue_parked] at hq
      refine ⟨q, hq, hqf, ?_⟩
      rw [setQueue_queues] at hmem
      split at hmem
      · next h =>
        rw [h.1, h.2]
        simpa using hmem
      · exact hmem
    obtain ⟨owner, resp', attempt, x, hphase, hmem⟩ := hasking
    rw [setQueue_queues] at hmem
    split at hmem
    · next h =>
      rcases List.mem_append.mp hmem with hold | hlast
      · refine hs.apart k hk ⟨owner, resp', attempt, x, hphase, ?_⟩ hbefore
        rw [h.1, h.2]
        exact hold
      · cases List.mem_singleton.mp hlast
        exact hfree k hk rfl h.2 ⟨owner, attempt, hphase⟩ hbefore
    · exact hs.apart k hk ⟨owner, resp', attempt, x, hphase, hmem⟩ hbefore

theorem Sound.queueTake (hs : Sound home Nobody s) {a : Ask ι} (hne : a.taker ≠ a.dest)
    (hlt : a.resp < s.nextResp) (hasks : ∀ b ∈ s.asks, b.resp ≠ a.resp)
    (hnew : ∀ taker, .take taker a.resp ∉ (s.workers a.dest).queues a.object)
    (hfree : ∀ k ∈ s.tasks, k.worker = a.taker → k.object = a.object →
      (∃ owner attempt, k.phase = .awaiting owner a.resp attempt) → Standing s k →
        home k.worker k.object) :
    Sound home Nobody (s.queueTake site e a) := by
  have hqueued := hs.push_take hne hlt hasks hnew hfree
  unfold State.queueTake
  dsimp only
  split
  · exact hqueued.trims ((trims_serviceFront site _ _).trans (trims_setReady _ _ _))
  · exact hqueued

theorem Sound.onTake (hs : Sound home Nobody s) {i : Nat} {a : Ask ι} (ha : s.asks[i]? = some a)
    (hidle : (s.workers a.dest).ready = none) (hfree : QueuesFree home site e s a) :
    Sound home Nobody ({ s with asks := s.asks.eraseIdx i }.onTake site e a) := by
  obtain ⟨hne, hlt, hout⟩ := hs.asked a (List.mem_of_getElem? ha)
  have hreceived : Sound home Nobody { s with asks := s.asks.eraseIdx i } := by
    refine hs.retask hs.tasks_nodup (fun k hk => .inl hk) le_rfl
      (hs.asks_nodup.sublist ((List.eraseIdx_sublist ..).map _)) fun b hb => .inl ?_
    exact (List.eraseIdx_sublist ..).subset hb
  have hasks : ∀ b ∈ s.asks.eraseIdx i, b.resp ≠ a.resp := ne_of_mem_eraseIdx hs.asks_nodup ha
  unfold State.onTake
  split
  · next howned =>
    exact hreceived.queueTake hne hlt hasks (fun taker => hout _ _ taker)
      (hfree hidle (.inl howned))
  split
  · exact hreceived.trims (trims_answer _ _ _)
  next htaking =>
  have hadopt := trims_adoptForTake site a.dest a.object (e := e)
    (s := { s with asks := s.asks.eraseIdx i })
  split
  · next r heq =>
    rw [heq] at hadopt
    have hadmits := accepts_of_adoptForTake site a.dest a.object (e := e)
      (s := { s with asks := s.asks.eraseIdx i }) (by rw [heq])
    refine (hreceived.trims hadopt).queueTake hne (hadopt.nextResp ▸ hlt) (hadopt.asks ▸ hasks)
      (fun taker hmem => hout _ _ taker ((hadopt.sublist _ _).subset hmem)) ?_
    rw [hadopt.tasks]
    intro k hk hw ho hphase hstanding
    exact hfree hidle (.inr ⟨Bool.eq_false_iff.mpr htaking, hadmits⟩) k hk hw ho hphase
      (hstanding.trims hadopt)
  · next r heq =>
    rw [heq] at hadopt
    exact (hreceived.trims hadopt).trims (trims_answer _ _ _)

theorem Sound.failAndPump (hs : Sound home Nobody s) :
    Sound home Nobody (s.failAndPump site e w t) :=
  hs.failTxn.trims (trims_setReady w _ _)

theorem Sound.onTaken (hs : Sound home Nobody s) {i : Nat} {k : TakeTask ι}
    (hk : s.tasks[i]? = some k) (result : TakenResult) :
    Sound home Nobody
      ({ s with tasks := s.tasks.eraseIdx i }.onTaken site e k.worker k.txn k.object result) := by
  have hreceived : Sound home Nobody { s with tasks := s.tasks.eraseIdx i } := by
    refine hs.retask (hs.tasks_nodup.sublist ((List.eraseIdx_sublist ..).map _))
      (fun j hj => .inl ?_) le_rfl hs.asks_nodup fun a ha => .inl ha
    exact (List.eraseIdx_sublist ..).subset hj
  -- the transaction has no other task
  have hno : ∀ j ∈ s.tasks.eraseIdx i, j.worker = k.worker → j.txn ≠ k.txn := by
    intro j hj hw ht
    exact ne_of_mem_eraseIdx hs.tasks_nodup hk j hj (Prod.ext hw ht)
  unfold State.onTaken
  split
  · exact hreceived
  next p hp =>
  have hreach : k.object ∈ p.reach := ((hs.taking k (List.mem_of_getElem? hk)).2 p hp).2
  have hmarked := hreceived.mark { p with taking := false } hp rfl rfl
    fun j hj hw ht => absurd ht (hno j hj hw)
  dsimp only
  split
  · exact hmarked.trims (trims_setReady _ _ _)
  · exact hmarked.failAndPump
  next tm =>
  split
  · next r heq =>
    refine Sound.failAndPump (hmarked.trims ?_)
    split at heq
    · cases heq
    · have htrims := trims_admitDeed site (e := e) k.worker k.object tm
        (s := { s with tasks := s.tasks.eraseIdx i }.setParked k.worker k.txn
          (some { p with taking := false }))
      rw [heq] at htrims
      exact htrims
  · next r heq =>
    have htrims : Trims ({ s with tasks := s.tasks.eraseIdx i }.setParked k.worker k.txn
        (some { p with taking := false })) r := by
      split at heq
      · cases heq
        exact .refl _
      · have htrims := trims_admitDeed site (e := e) k.worker k.object tm
          (s := { s with tasks := s.tasks.eraseIdx i }.setParked k.worker k.txn
            (some { p with taking := false }))
        rw [heq] at htrims
        exact htrims
    have htaken := hmarked.trims htrims
    refine Sound.trims ?_ (trims_setReady _ _ _)
    split
    · next hempty =>
      have hparked : (r.workers k.worker).parked k.txn = some { p with taking := false } := by
        rw [htrims.parked, setParked_parked, if_pos ⟨rfl, rfl⟩]
      have hpushed := htaken.push_txn hparked hreach (by rw [hempty]; exact List.not_mem_nil) ?_
      · rwa [hempty] at hpushed
      · rw [htrims.tasks]
        exact fun j hj hw ht => absurd ht (hno j hj hw)
    · exact htaken

theorem Sound.activate (hs : Sound home Nobody s) (f : Fetch ι) (ok : Bool) :
    Sound home Nobody (s.activate site e f ok) := by
  unfold State.activate
  dsimp only
  split
  · refine Sound.trims (hs.trims ?_) (trims_setReady _ _ _)
    split
    · exact trims_update _ rfl
    · exact .refl _
  · exact hs.failAndPump

theorem Sound.onActivated (hs : Sound home Nobody s) (f : Fetch ι) (ok : Bool) :
    Sound home Nobody (s.onActivated site e f ok) := by
  unfold State.onActivated
  split
  · exact hs.activate f ok
  · next p hp =>
    have hmarked := hs.mark { p with activating := false } hp rfl rfl
      fun k hk hw ht => (hs.taking_of_task hp hk hw ht).1
    exact hmarked.activate f ok

theorem Sound.taskStep (hs : Sound home Nobody s) {i : Nat} {k : TakeTask ι}
    (hk : s.tasks[i]? = some k) : Sound home Nobody (s.taskStep e i k) := by
  have hplain : ∀ phase, (∀ owner resp attempt, phase ≠ .awaiting owner resp attempt) →
      Sound home Nobody (s.setPhase i k phase) :=
    fun phase hphase => hs.setPhase hk fun owner resp attempt h =>
      absurd h (hphase owner resp attempt)
  have hledger : ∀ v g attempt, Sound home Nobody
      (if v = k.worker ∧ v ≠ usizeMax then
        { s.setPhase i k (.done k.worker .alreadyLocal) with
          deeds := ⟨k.worker, k.object, ⟨false, k.worker, none, g⟩⟩ :: s.deeds }
      else if v ≠ usizeMax then s.knock i k attempt v
      else s.knock i k attempt (e.owner k.object)) := by
    intro v g attempt
    split
    · refine Sound.trims (hplain (.done k.worker .alreadyLocal) fun _ _ _ h => by cases h) ?_
      exact .same rfl rfl rfl rfl
    · split
      · exact hs.knock hk _ _
      · exact hs.knock hk _ _
  unfold State.taskStep
  split
  · exact hs
  · split
    · exact hplain _ fun _ _ _ h => by cases h
    split
    · exact hs.knock hk _ _
    split
    · exact hs.knock hk _ _
    split
    · exact hledger _ _ _
    · exact hledger _ _ _
    · exact hs.knock hk _ _
  · split
    · exact hs
    · exact hplain _ fun _ _ _ h => by cases h
    · exact hplain _ fun _ _ _ h => by cases h
    · exact hplain _ fun _ _ _ h => by cases h

theorem Sound.loseAnswer (hs : Sound home Nobody s) {i : Nat} {k : TakeTask ι}
    (hk : s.tasks[i]? = some k) : Sound home Nobody (s.loseAnswer i k) := by
  unfold State.loseAnswer
  split
  · exact hs.setPhase hk fun _ _ _ h => by cases h
  · exact hs

theorem Sound.whenIdle (hs : Sound home Nobody s) {next : State ι}
    (h : (s.workers w).ready = none → Sound home Nobody next) :
    Sound home Nobody (s.whenIdle w next) := by
  unfold State.whenIdle
  split
  · next hidle =>
    split
    · exact hs
    · exact h hidle
  · exact hs

theorem sound_step (s : State ι) (m : Move ι × Env ι) (hs : Sound home Nobody s)
    (hsingle : SingleBut home site s m) : Sound home Nobody (s.step site m) := by
  obtain ⟨m, e⟩ := m
  cases m with
  | submit w participants readOnly => exact hs.whenIdle fun _ => hs.submit participants readOnly
  | take i =>
    unfold State.step
    dsimp only
    split
    · exact hs
    · next a ha => exact hs.whenIdle fun hidle => hs.onTake ha hidle (hsingle a ha)
  | adopt i =>
    unfold State.step
    dsimp only
    split
    · exact hs
    · refine hs.whenIdle fun _ => Sound.trims (hs.trims ?_) (trims_admitDeed site _ _ _)
      exact .same rfl rfl rfl rfl
  | taken i =>
    unfold State.step
    dsimp only
    split
    · next hk => exact hs.whenIdle fun _ => hs.onTaken hk _
    · exact hs
  | activated i ok =>
    unfold State.step
    dsimp only
    split
    · exact hs
    · refine hs.whenIdle fun _ => Sound.onActivated (hs.trims ?_) _ ok
      exact .same rfl rfl rfl rfl
  | shipDone w ok unpromoted rebased =>
    unfold State.step
    dsimp only
    split
    · exact hs.whenIdle fun _ => hs.trims (trims_onShipDone site w ok unpromoted rebased)
    · exact hs
  | shutdown w => exact hs.whenIdle fun _ => hs.trims (trims_shutdown site w)
  | shed w => exact hs.whenIdle fun _ => hs.trims (trims_update w rfl)
  | recheckPolls w object => exact hs.whenIdle fun _ => hs.trims (trims_refreshIfStale w object)
  | pump w => exact hs.pump hsingle
  | task i =>
    unfold State.step
    dsimp only
    split
    · exact hs
    · next k hk => exact hs.taskStep hk
  | loseAnswer i =>
    unfold State.step
    dsimp only
    split
    · exact hs
    · next k hk => exact hs.loseAnswer hk
  | boot w memory => exact hs.boot memory

/-- Whatever the workers, the transactions and the messages: in every state of a run nobody waits
for itself, if no transaction comes to wait in two queues of an object except at its home. -/
theorem deadlock_free (site : Site ι) (moves : List (Move ι × Env ι))
    (h : Runs.Guarded (State.step site) (Single site) {} moves) :
    Runs.Throughout (State.step site) DeadlockFree {} moves :=
  h.throughout (I := Sound (Home site) Nobody) (fun s m hs => sound_step s m hs)
    (fun _ hs => hs.deadlockFree) Sound.initial

section Crossing

/-- Object `n` has its home at worker `n`. -/
def crossroads : Site Nat :=
  { defaultWorker := id, hysteresis := 0, logPrimary := true, maxBoatBytes := 1000 }

/-- Everything is at home, as far as the hints go; but object 0 is said to be at worker `w`. -/
def hinting (w : Nat) : Env Nat :=
  { owner := fun o => if o = 0 then w else o, outcome := .ok fun _ => true }

/-- The ledger has object 0 on its way to worker 0. -/
def deeded : Env Nat :=
  { hinting 1 with claim := fun o => if o = 0 then .transit 0 3 else .unclaimed }

def pumping (w : Nat) (e : Env Nat) : List (Move Nat × Env Nat) := List.replicate 4 (.pump w, e)

theorem sorted_only (o : Nat) : [o].Pairwise (· < ·) := List.pairwise_singleton _ _

theorem sorted_both : [0, 1].Pairwise (· < ·) := by decide

def only (o : Nat) : Participants Nat := ⟨[o], sorted_only o⟩

/-- A transaction of worker 0 takes an object it has to activate from worker 1. -/
def handover : List (Move Nat × Env Nat) :=
  [(.submit 0 (only 1) false, hinting 0), (.pump 0, hinting 0), (.pump 0, hinting 0),
    (.task 0, hinting 0), (.take 0, hinting 0), (.task 0, hinting 0), (.taken 0, hinting 0),
    (.pump 0, hinting 0), (.pump 0, hinting 0), (.activated 0 true, hinting 0),
    (.pump 0, hinting 0), (.pump 0, hinting 0)]

theorem deadlock_free_handover :
    Runs.Throughout (State.step crossroads) DeadlockFree {} handover := by
  refine deadlock_free crossroads handover ?_
  have hquiet : ∀ (s : State Nat) (e : Env Nat) (w : Nat), s.tasks = [] →
      EntersFree (Home crossroads) crossroads e s w := by
    intro s e w htasks t p object _ _ _ _ _ _ k hk
    rw [htasks] at hk
    cases hk
  refine ⟨trivial, hquiet _ _ _ rfl, ?_, trivial, ?_, trivial, trivial, hquiet _ _ _ rfl,
    hquiet _ _ _ rfl, trivial, hquiet _ _ _ rfl, hquiet _ _ _ rfl, trivial⟩
  · intro t p object htop
    cases htop
  · intro a ha _ _ k hk _ _ _ hstanding
    obtain ⟨p, _, _, hmem⟩ := hstanding
    rw [List.mem_singleton.mp hk] at hmem
    cases hmem

/-- Worker 1 owns object 0, whose home is worker 0. Two transactions meet at home, where the first
cannot activate the object; the second asks for it in vain, and in the end from the queue of worker
1. There a boat sinks on a deed to worker 0 that was thought lost, and the object is given up; its
queue is not. Worker 0 adopts it, and a transaction of worker 1 asks for it from worker 0's queue,
behind the one whose take stands behind it. -/
def crossing : List (Move Nat × Env Nat) := List.flatten [
  [(.boot 1 ⟨fun o => if o = 0 then some 2 else none, fun _ => none⟩, hinting 0)],
  [(.submit 0 (only 0) false, hinting 0)], pumping 0 (hinting 0),
  [(.submit 0 (only 0) false, hinting 0)], pumping 0 (hinting 0),
  [(.activated 0 false, hinting 0)], pumping 0 (hinting 1),
  [(.task 0, hinting 1), (.take 0, { hinting 1 with fault := fun _ => .failed })],
  pumping 1 (hinting 1), [(.task 0, hinting 1)],
  -- a transaction of worker 1 is shipped; the next one waits for object 1 to be activated
  [(.submit 1 (only 0) false, hinting 1)], pumping 1 (hinting 1),
  [(.activated 0 true, hinting 1)], pumping 1 (hinting 1),
  [(.submit 1 ⟨[0, 1], sorted_both⟩ false, hinting 1)], pumping 1 (hinting 1),
  [(.submit 1 (only 0) false, hinting 1)], pumping 1 (hinting 1),
  [(.task 0, hinting 1), (.take 0, hinting 1)],
  [(.shipDone 1 false [] (some 0), deeded)], pumping 1 (hinting 1),
  -- worker 0 learns that the object is its own
  [(.submit 0 (only 0) false, hinting 1)], pumping 0 (hinting 1),
  [(.task 1, hinting 1), (.take 0, deeded), (.task 1, hinting 1), (.task 1, deeded)],
  [(.adopt 0, hinting 1), (.taken 1, hinting 0)], pumping 0 (hinting 0),
  [(.activated 0 false, hinting 1)], pumping 1 (hinting 0),
  [(.task 1, hinting 0), (.take 0, hinting 0)]]

theorem crossing_deadlock : ¬ DeadlockFree (Runs.run (State.step crossroads) {} crossing) := by
  have hqueue0 : ((Runs.run (State.step crossroads) {} crossing).workers 0).queues 0 =
      [.txn 1, .txn 2, .take 1 3] := by decide +kernel
  have hqueue1 : ((Runs.run (State.step crossroads) {} crossing).workers 1).queues 0 =
      [.txn 2, .take 0 1] := by decide +kernel
  have hfrontier0 : (((Runs.run (State.step crossroads) {} crossing).workers 0).parked 1).bind
      Parked.frontier = some 0 := by decide +kernel
  have hfrontier1 : (((Runs.run (State.step crossroads) {} crossing).workers 1).parked 2).bind
      Parked.frontier = some 0 := by decide +kernel
  have htasks : (Runs.run (State.step crossroads) {} crossing).tasks =
      [⟨0, 1, 0, .awaiting 1 1 1⟩, ⟨1, 2, 0, .awaiting 0 3 0⟩] := by decide +kernel
  generalize Runs.run (State.step crossroads) {} crossing = s at *
  obtain ⟨p, hp, hpf⟩ := Option.bind_eq_some_iff.mp hfrontier0
  obtain ⟨q, hq, hqf⟩ := Option.bind_eq_some_iff.mp hfrontier1
  have hahead0 : Ahead ((s.workers 0).queues 0) (.txn 1) (.take 1 3) := ⟨[], [.txn 2], [], hqueue0⟩
  have hahead1 : Ahead ((s.workers 1).queues 0) (.txn 2) (.take 0 1) := ⟨[], [], [], hqueue1⟩
  have hask1 : Waits s (.txn 1 2) (.take 0 0 3) :=
    .taking hq hqf (htasks ▸ List.mem_cons_of_mem _ List.mem_cons_self) hahead0.mem.2
  have hask0 : Waits s (.txn 0 1) (.take 1 0 1) :=
    .taking hp hpf (htasks ▸ List.mem_cons_self) hahead1.mem.2
  have hcycle : Relation.TransGen (Waits s) (.txn 1 2) (.txn 1 2) :=
    ((Relation.TransGen.single hask1).tail (.queued hahead0)).tail hask0 |>.tail (.queued hahead1)
  exact fun hfree => hfree _ hcycle

end Crossing

end Fafo.Acquire
