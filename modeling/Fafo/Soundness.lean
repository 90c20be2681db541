import Mathlib.Data.List.Perm.Basic
import Fafo.Locking

/-! What keeps queues, parked transactions and takes sound, change by change. -/
namespace Fafo.Acquire

open Ownership (TransferMeta)

variable {ι : Type} [LinearOrder ι] {site : Site ι} {e : Env ι} {s : State ι}
  {home : Nat → ι → Prop} {X X' : Nat → Nat → ι → Prop} {w t : Nat} {object : ι}

section Fields

variable (s : State ι) (w v : Nat) (object o : ι) (queue : List Entry) (t u : Nat)
  (p : Option (Parked ι))

theorem setQueue_queues : ((s.setQueue w object queue).workers v).queues o =
    if v = w ∧ o = object then queue else (s.workers v).queues o := by
  by_cases hv : v = w
  · subst hv
    by_cases ho : o = object
    · simp [State.setQueue, ho]
    · simp [State.setQueue, ho]
  · simp [State.setQueue, hv]

@[simp] theorem setQueue_parked :
    ((s.setQueue w object queue).workers v).parked = (s.workers v).parked := by
  by_cases hv : v = w
  · subst hv
    simp [State.setQueue]
  · simp [State.setQueue, Function.update_of_ne hv]

@[simp] theorem setQueue_nextTxn :
    ((s.setQueue w object queue).workers v).nextTxn = (s.workers v).nextTxn := by
  by_cases hv : v = w
  · subst hv
    simp [State.setQueue]
  · simp [State.setQueue, Function.update_of_ne hv]

@[simp] theorem setQueue_tasks : (s.setQueue w object queue).tasks = s.tasks := rfl
@[simp] theorem setQueue_asks : (s.setQueue w object queue).asks = s.asks := rfl
@[simp] theorem setQueue_nextResp : (s.setQueue w object queue).nextResp = s.nextResp := rfl

theorem setParked_parked : ((s.setParked w t p).workers v).parked u =
    if v = w ∧ u = t then p else (s.workers v).parked u := by
  by_cases hv : v = w
  · subst hv
    by_cases hu : u = t
    · simp [State.setParked, hu]
    · simp [State.setParked, hu]
  · simp [State.setParked, hv]

@[simp] theorem setParked_queues :
    ((s.setParked w t p).workers v).queues = (s.workers v).queues := by
  by_cases hv : v = w
  · subst hv
    simp [State.setParked]
  · simp [State.setParked, Function.update_of_ne hv]

@[simp] theorem setParked_nextTxn :
    ((s.setParked w t p).workers v).nextTxn = (s.workers v).nextTxn := by
  by_cases hv : v = w
  · subst hv
    simp [State.setParked]
  · simp [State.setParked, Function.update_of_ne hv]

@[simp] theorem setParked_tasks : (s.setParked w t p).tasks = s.tasks := rfl
@[simp] theorem setParked_asks : (s.setParked w t p).asks = s.asks := rfl
@[simp] theorem setParked_nextResp : (s.setParked w t p).nextResp = s.nextResp := rfl

end Fields

theorem Sound.weaken (hs : Sound home X s)
    (hX : ∀ v u o, X v u o → .txn u ∈ (s.workers v).queues o → X' v u o) : Sound home X' s :=
  { hs with entry := fun v u o hmem => (hs.entry v u o hmem).imp_left fun h => hX v u o h hmem }

/-- The queue of one object loses entries, but not the head that a transaction holds. -/
theorem Sound.shrink (hs : Sound home X s) {queue : List Entry}
    (hsub : queue.Sublist ((s.workers w).queues object))
    (hheld : ∀ u p, (s.workers w).parked u = some p →
      object ∈ p.participants.val.take p.acquired → queue.head? = some (.txn u))
    (hX : ∀ v u o, X v u o → .txn u ∈ ((s.setQueue w object queue).workers v).queues o →
      X' v u o) : Sound home X' (s.setQueue w object queue) := by
  have hqueues : ∀ v o, (((s.setQueue w object queue).workers v).queues o).Sublist
      ((s.workers v).queues o) := by
    intro v o
    rw [setQueue_queues]
    split
    · next h =>
      obtain ⟨rfl, rfl⟩ := h
      exact hsub
    · exact .refl _
  refine ⟨fun v o => (hs.nodup v o).sublist ((hqueues v o).map _), fun v u o hmem => ?_,
    fun v u p hp o ho => ?_, by simpa using hs.fresh, fun v o taker resp hmem => ?_,
    fun a ha => ?_, hs.asks_nodup, hs.tasks_nodup, by simpa using hs.taking,
    fun k hk hasking hstanding => ?_⟩
  · rw [setQueue_parked]
    exact (hs.entry v u o ((hqueues v o).subset hmem)).imp_left fun h => hX v u o h hmem
  · rw [setQueue_parked] at hp
    rw [setQueue_queues]
    split
    · next h =>
      obtain ⟨rfl, rfl⟩ := h
      exact hheld u p hp ho
    · exact hs.held v u p hp o ho
  · exact hs.foreign v o taker resp ((hqueues v o).subset hmem)
  · obtain ⟨hne, hlt, hout⟩ := hs.asked a ha
    exact ⟨hne, hlt, fun v o taker hmem => hout v o taker ((hqueues v o).subset hmem)⟩
  · refine hs.apart k hk ?_ ?_
    · obtain ⟨owner, resp, attempt, x, hphase, hmem⟩ := hasking
      exact ⟨owner, resp, attempt, x, hphase, (hqueues x k.object).subset hmem⟩
    · obtain ⟨p, hp, hf, hmem⟩ := hstanding
      rw [setQueue_parked] at hp
      exact ⟨p, hp, hf, (hqueues k.worker k.object).subset hmem⟩

/-- The queue of one object gets another entry at its end. -/
theorem Sound.push (hs : Sound home X s) {a : Entry}
    (hid : a.id ∉ ((s.workers w).queues object).map Entry.id)
    (htxn : ∀ u, a = .txn u → ∃ p, (s.workers w).parked u = some p ∧ object ∈ p.reach)
    (htake : ∀ taker resp, a = .take taker resp →
      taker ≠ w ∧ resp < s.nextResp ∧ ∀ b ∈ s.asks, b.resp ≠ resp)
    (hapart : ∀ k ∈ s.tasks,
      Asking (s.setQueue w object ((s.workers w).queues object ++ [a])) k →
      Standing (s.setQueue w object ((s.workers w).queues object ++ [a])) k →
      home k.worker k.object) :
    Sound home X (s.setQueue w object ((s.workers w).queues object ++ [a])) := by
  have hmem : ∀ v o b, b ∈ ((s.setQueue w object
      ((s.workers w).queues object ++ [a])).workers v).queues o →
      b ∈ (s.workers v).queues o ∨ v = w ∧ o = object ∧ b = a := by
    intro v o b hb
    rw [setQueue_queues] at hb
    split at hb
    · next h =>
      obtain ⟨rfl, rfl⟩ := h
      rcases List.mem_append.mp hb with hb | hb
      · exact .inl hb
      · exact .inr ⟨rfl, rfl, List.mem_singleton.mp hb⟩
    · exact .inl hb
  refine ⟨fun v o => ?_, fun v u o hb => ?_, fun v u p hp o ho => ?_, by simpa using hs.fresh,
    fun v o taker resp hb => ?_, fun b hb => ?_, hs.asks_nodup, hs.tasks_nodup,
    by simpa using hs.taking, hapart⟩
  · rw [setQueue_queues]
    split
    · next h =>
      obtain ⟨rfl, rfl⟩ := h
      rw [List.map_append]
      refine List.Nodup.append (hs.nodup v o) (List.nodup_singleton _) ?_
      simpa using hid
    · exact hs.nodup v o
  · rw [setQueue_parked]
    rcases hmem v o _ hb with hb | ⟨rfl, rfl, heq⟩
    · exact hs.entry v u o hb
    · exact .inr (htxn u heq.symm)
  · rw [setQueue_parked] at hp
    have hhead := hs.held v u p hp o ho
    rw [setQueue_queues]
    split
    · next h =>
      obtain ⟨rfl, rfl⟩ := h
      rw [List.head?_append, hhead]
      rfl
    · exact hhead
  · rcases hmem v o _ hb with hb | ⟨rfl, rfl, heq⟩
    · exact hs.foreign v o taker resp hb
    · obtain ⟨hne, hlt, _⟩ := htake taker resp heq.symm
      exact ⟨hne, hlt⟩
  · obtain ⟨hne, hlt, hout⟩ := hs.asked b hb
    refine ⟨hne, hlt, fun v o taker hin => ?_⟩
    rcases hmem v o _ hin with hin | ⟨_, _, hin⟩
    · exact hout v o taker hin
    · exact (htake taker b.resp hin.symm).2.2 b hb rfl

/-- A parked transaction moves on: it reaches no less, and its frontier is not what it takes. -/
theorem Sound.repark (hs : Sound home X s) {p p' : Parked ι}
    (hp : (s.workers w).parked t = some p) (hreach : p.reach ⊆ p'.reach)
    (hheld : ∀ o ∈ p'.participants.val.take p'.acquired,
      ((s.workers w).queues o).head? = some (.txn t))
    (htaking : ∀ k ∈ s.tasks, k.worker = w → k.txn = t →
      p'.taking = true ∧ (p'.frontier = some k.object → p.frontier = some k.object)) :
    Sound home X (s.setParked w t (some p')) := by
  refine ⟨by simpa using hs.nodup, fun v u o hmem => ?_, fun v u q hq o ho => ?_,
    fun v u q hq => ?_, by simpa using hs.foreign, by simpa using hs.asked, hs.asks_nodup,
    hs.tasks_nodup, fun k hk => ?_, fun k hk hasking hstanding => ?_⟩
  · rw [setParked_queues] at hmem
    refine (hs.entry v u o hmem).imp_right fun ⟨q, hq, ho⟩ => ?_
    rw [setParked_parked]
    split
    · next h =>
      obtain ⟨rfl, rfl⟩ := h
      rw [hp] at hq
      cases hq
      exact ⟨p', rfl, hreach ho⟩
    · exact ⟨q, hq, ho⟩
  · rw [setParked_queues]
    rw [setParked_parked] at hq
    split at hq
    · next h =>
      obtain ⟨rfl, rfl⟩ := h
      cases hq
      exact hheld o ho
    · exact hs.held v u q hq o ho
  · rw [setParked_nextTxn]
    rw [setParked_parked] at hq
    split at hq
    · next h =>
      obtain ⟨rfl, rfl⟩ := h
      exact hs.fresh v u p hp
    · exact hs.fresh v u q hq
  · rw [setParked_nextTxn]
    obtain ⟨hlt, htaking'⟩ := hs.taking k hk
    refine ⟨hlt, fun q hq => ?_⟩
    rw [setParked_parked] at hq
    split at hq
    · next h =>
      cases hq
      rw [h.1, h.2] at htaking'
      exact ⟨(htaking k hk h.1 h.2).1, hreach (htaking' p hp).2⟩
    · exact htaking' q hq
  · refine hs.apart k hk (by simpa [Asking] using hasking) ?_
    obtain ⟨q, hq, hf, hmem⟩ := hstanding
    rw [setParked_queues] at hmem
    rw [setParked_parked] at hq
    split at hq
    · next h =>
      cases hq
      refine ⟨p, ?_, (htaking k hk h.1 h.2).2 hf, hmem⟩
      rw [h.1, h.2]
      exact hp
    · exact ⟨q, hq, hf, hmem⟩

/-- The transaction is about to leave the queues of these objects. -/
def Leaving (w t : Nat) (objects : List ι) (v u : Nat) (o : ι) : Prop :=
  v = w ∧ u = t ∧ o ∈ objects

theorem Sound.unpark (hs : Sound home Nobody s) {p : Parked ι}
    (hp : (s.workers w).parked t = some p) :
    Sound home (Leaving w t p.participants.val) (s.setParked w t none) := by
  refine ⟨by simpa using hs.nodup, fun v u o hmem => ?_, fun v u q hq o ho => ?_,
    fun v u q hq => ?_, by simpa using hs.foreign, by simpa using hs.asked, hs.asks_nodup,
    hs.tasks_nodup, fun k hk => ?_, fun k hk hasking hstanding => ?_⟩
  · rw [setParked_queues] at hmem
    obtain ⟨q, hq, ho⟩ := (hs.entry v u o hmem).resolve_left id
    rw [setParked_parked]
    split
    · next h =>
      obtain ⟨rfl, rfl⟩ := h
      rw [hp] at hq
      cases hq
      exact .inl ⟨rfl, rfl, List.mem_of_mem_take ho⟩
    · exact .inr ⟨q, hq, ho⟩
  · rw [setParked_queues]
    rw [setParked_parked] at hq
    split at hq
    · cases hq
    · exact hs.held v u q hq o ho
  · rw [setParked_nextTxn]
    rw [setParked_parked] at hq
    split at hq
    · cases hq
    · exact hs.fresh v u q hq
  · rw [setParked_nextTxn]
    obtain ⟨hlt, htaking⟩ := hs.taking k hk
    refine ⟨hlt, fun q hq => ?_⟩
    rw [setParked_parked] at hq
    split at hq
    · cases hq
    · exact htaking q hq
  · refine hs.apart k hk (by simpa [Asking] using hasking) ?_
    obtain ⟨q, hq, hf, hmem⟩ := hstanding
    rw [setParked_queues] at hmem
    rw [setParked_parked] at hq
    split at hq
    · cases hq
    · exact ⟨q, hq, hf, hmem⟩

/-- What is taken out of a list has a key of its own. -/
theorem ne_of_mem_eraseIdx {α β : Type} {f : α → β} {l : List α} (h : (l.map f).Nodup) {i : Nat}
    {a : α} (ha : l[i]? = some a) : ∀ b ∈ l.eraseIdx i, f b ≠ f a := by
  obtain ⟨hlt, rfl⟩ := List.getElem?_eq_some_iff.mp ha
  have hkeys := ((List.getElem_cons_eraseIdx_perm hlt).map f).nodup_iff.mpr h
  intro b hb heq
  refine (List.nodup_cons.mp hkeys).1 ?_
  rw [← heq]
  exact List.mem_map_of_mem hb

/-- Tasks that are new, or in a new phase, are not asking yet. -/
theorem Sound.retask (hs : Sound home X s) {tasks : List (TakeTask ι)} {asks : List (Ask ι)}
    {nextResp : Nat} (hnodup : (tasks.map fun k => (k.worker, k.txn)).Nodup)
    (htasks : ∀ k ∈ tasks, k ∈ s.tasks ∨ ¬ Asking s k ∧
      k.txn < (s.workers k.worker).nextTxn ∧
      ∀ p, (s.workers k.worker).parked k.txn = some p → p.taking = true ∧ k.object ∈ p.reach)
    (hresp : s.nextResp ≤ nextResp) (hasksnodup : (asks.map Ask.resp).Nodup)
    (hasks : ∀ a ∈ asks, a ∈ s.asks ∨
      a.taker ≠ a.dest ∧ a.resp = s.nextResp ∧ s.nextResp < nextResp) :
    Sound home X { s with tasks, asks, nextResp } where
  nodup := hs.nodup
  entry := hs.entry
  held := hs.held
  fresh := hs.fresh
  foreign v o taker resp hmem := by
    obtain ⟨hne, hlt⟩ := hs.foreign v o taker resp hmem
    exact ⟨hne, hlt.trans_le hresp⟩
  asked a ha := by
    rcases hasks a ha with hold | ⟨hne, heq, hlt⟩
    · obtain ⟨hne, hlt, hout⟩ := hs.asked a hold
      exact ⟨hne, hlt.trans_le hresp, hout⟩
    · refine ⟨hne, by rwa [heq], fun v o taker hmem => ?_⟩
      exact absurd (hs.foreign v o taker a.resp hmem).2 (by omega)
  asks_nodup := hasksnodup
  tasks_nodup := hnodup
  taking k hk := by
    rcases htasks k hk with hold | ⟨_, htaking⟩
    · exact hs.taking k hold
    · exact htaking
  apart k hk hasking hstanding := by
    rcases htasks k hk with hold | ⟨hno, _⟩
    · exact hs.apart k hold hasking hstanding
    · exact absurd hasking hno

theorem Sound.setPhase (hs : Sound home X s) {i : Nat} {k : TakeTask ι} (hk : s.tasks[i]? = some k)
    {phase : Phase} (hphase : ∀ owner resp attempt, phase = .awaiting owner resp attempt →
      ∀ v o taker, .take taker resp ∉ (s.workers v).queues o) :
    Sound home X (s.setPhase i k phase) := by
  refine hs.retask ?_ (fun k' hk' => ?_) le_rfl hs.asks_nodup fun a ha => .inl ha
  · have hset : (s.tasks.set i { k with phase }).map (fun k => (k.worker, k.txn)) =
        s.tasks.map fun k => (k.worker, k.txn) := by
      rw [List.map_set]
      refine List.ext_getElem? fun j => ?_
      rw [List.getElem?_set]
      split
      · next h =>
        obtain ⟨hlt, rfl⟩ := List.getElem?_eq_some_iff.mp hk
        subst h
        simp [hlt]
      · rfl
    rw [hset]
    exact hs.tasks_nodup
  · rcases List.mem_or_eq_of_mem_set hk' with hold | rfl
    · exact .inl hold
    · refine .inr ⟨?_, hs.taking k (List.mem_of_getElem? hk)⟩
      rintro ⟨owner, resp, attempt, x, heq, hmem⟩
      exact hphase owner resp attempt heq x k.object k.worker hmem

theorem Sound.knock (hs : Sound home X s) {i : Nat} {k : TakeTask ι} (hk : s.tasks[i]? = some k)
    (attempt owner : Nat) : Sound home X (s.knock i k attempt owner) := by
  unfold State.knock
  split
  · exact hs.setPhase hk fun _ _ _ h => by cases h
  · next hne =>
    have hfresh : ∀ v o taker, .take taker s.nextResp ∉ (s.workers v).queues o := by
      intro v o taker hmem
      exact absurd (hs.foreign v o taker _ hmem).2 (by omega)
    have hphase : Sound home X (s.setPhase i k (.awaiting owner s.nextResp attempt)) := by
      refine hs.setPhase hk fun _ _ _ h => ?_
      cases h
      exact hfresh
    refine hphase.retask hphase.tasks_nodup (fun k hk => .inl hk) (Nat.le_succ _) ?_ fun a ha => ?_
    · rw [List.map_append]
      refine List.Nodup.append hs.asks_nodup (List.nodup_singleton _) ?_
      simp only [List.map_cons, List.map_nil, List.disjoint_singleton]
      intro hmem
      obtain ⟨a, ha, heq⟩ := List.mem_map.mp hmem
      exact absurd (hs.asked a ha).2.1 (by omega)
    · rcases List.mem_append.mp ha with hold | hnew
      · exact .inl hold
      · obtain rfl := List.mem_singleton.mp hnew
        exact .inr ⟨fun h => hne h.symm, rfl, Nat.lt_succ_self _⟩

/-- What each object in turn preserves for those behind it. -/
theorem gather_prefix {f : ι → State ι → List Nat × State ι} {I : List ι → State ι → Prop}
    (hf : ∀ o objects s, I (o :: objects) s → I objects (f o s).2) (objects rest : List ι)
    (h : I (objects ++ rest) s) : I rest (s.gather f objects).2 := by
  induction objects generalizing s with
  | nil => exact h
  | cons o objects ih => exact ih (hf o _ s h)

theorem gather_induction {f : ι → State ι → List Nat × State ι} {I : List ι → State ι → Prop}
    (hf : ∀ o objects s, I (o :: objects) s → I objects (f o s).2) (objects : List ι)
    (h : I objects s) : I [] (s.gather f objects).2 :=
  gather_prefix hf objects [] (by rwa [List.append_nil])

/-- The queue of an object without the transaction that leaves it. -/
theorem Sound.drop_leaving {objects : List ι}
    (hs : Sound home (Leaving w t (object :: objects)) s)
    (hgone : (s.workers w).parked t = none) {queue : List Entry}
    (hsub : queue.Sublist ((s.workers w).queues object)) (hout : .txn t ∉ queue)
    (hhead : ∀ u, u ≠ t → ((s.workers w).queues object).head? = some (.txn u) →
      queue.head? = some (.txn u)) :
    Sound home (Leaving w t objects) (s.setQueue w object queue) := by
  refine hs.shrink hsub (fun u p hp ho => ?_) fun v u o hX hmem => ?_
  · refine hhead u ?_ (hs.held w u p hp object ho)
    rintro rfl
    rw [hgone] at hp
    cases hp
  · obtain ⟨rfl, rfl, ho⟩ := hX
    refine ⟨rfl, rfl, (List.mem_cons.mp ho).resolve_left ?_⟩
    rintro rfl
    rw [setQueue_queues, if_pos ⟨rfl, rfl⟩] at hmem
    exact hout hmem

/-- While a transaction leaves queue after queue. -/
structure Departing (home : Nat → ι → Prop) (w t : Nat) (objects : List ι) (s : State ι) :
    Prop where
  sound : Sound home (Leaving w t objects) s
  gone : (s.workers w).parked t = none

theorem Departing.trims {objects : List ι} {s' : State ι} (h : Departing home w t objects s)
    (htrims : Trims s s') : Departing home w t objects s' :=
  ⟨h.sound.trims htrims, by rw [htrims.parked]; exact h.gone⟩

theorem Departing.leave {objects : List ι} (h : Departing home w t (object :: objects) s) :
    Departing home w t objects (s.leave site e w t object).2 := by
  have hleft : Departing home w t objects
      (s.setQueue w object (((s.workers w).queues object).filter fun a => a ≠ .txn t)) := by
    refine ⟨h.sound.drop_leaving h.gone List.filter_sublist (by simp) fun u hu hhead => ?_,
      by rw [setQueue_parked]; exact h.gone⟩
    obtain ⟨rest, hqueue⟩ := List.head?_eq_some_iff.mp hhead
    rw [hqueue, List.filter_cons_of_pos (by simpa using hu), List.head?_cons]
  unfold State.leave
  split
  · next hempty =>
    refine ⟨h.sound.weaken fun v u o hX hmem => ?_, h.gone⟩
    obtain ⟨rfl, rfl, ho⟩ := hX
    refine ⟨rfl, rfl, (List.mem_cons.mp ho).resolve_left ?_⟩
    rintro rfl
    rw [hempty] at hmem
    cases hmem
  · dsimp only
    split
    · exact hleft
    · exact hleft.trims (trims_serviceFront site w object)

theorem Sound.failTxn (hs : Sound home Nobody s) : Sound home Nobody (s.failTxn site e w t).2 := by
  unfold State.failTxn
  split
  · exact hs
  · next p hp =>
    have hstart : Departing home w t p.participants.val (s.setParked w t none) :=
      ⟨hs.unpark hp, by simp [setParked_parked]⟩
    have hend : Departing home w t []
        ((s.setParked w t none).gather (State.leave site e w t) p.participants.val).2 :=
      gather_induction (fun _ _ _ h => h.leave) p.participants.val hstart
    exact hend.sound.weaken fun v u o hX _ => absurd hX.2.2 List.not_mem_nil

/-- While a transaction that ran gives up the heads it holds. -/
structure Popping (home : Nat → ι → Prop) (w t : Nat) (objects : List ι) (s : State ι) : Prop
    extends Departing home w t objects s where
  nodup : objects.Nodup
  heads : ∀ o ∈ objects, ((s.workers w).queues o).head? = some (.txn t)

theorem Popping.trims {objects : List ι} {s' : State ι} (h : Popping home w t objects s)
    (htrims : Trims s s') : Popping home w t objects s' :=
  ⟨h.toDeparting.trims htrims, h.nodup, fun o ho => by
    rw [htrims.head (h.heads o ho)]
    exact h.heads o ho⟩

theorem Popping.pop {objects : List ι} (h : Popping home w t (object :: objects) s) :
    Popping home w t objects (s.pop site e w object).2 := by
  obtain ⟨hnew, hnodup⟩ := List.nodup_cons.mp h.nodup
  obtain ⟨rest, hqueue⟩ := List.head?_eq_some_iff.mp (h.heads object List.mem_cons_self)
  have hout : .txn t ∉ rest := by
    intro hmem
    have hids := h.sound.nodup w object
    rw [hqueue, List.map_cons] at hids
    exact (List.nodup_cons.mp hids).1 (List.mem_map_of_mem hmem)
  have hpopped : Popping home w t objects (s.setQueue w object rest) := by
    refine ⟨⟨h.sound.drop_leaving h.gone ?_ hout fun u hu hhead => ?_, ?_⟩, hnodup, fun o ho => ?_⟩
    · rw [hqueue]
      exact List.sublist_cons_self _ _
    · rw [hqueue, List.head?_cons, Option.some_inj] at hhead
      cases hhead
      exact absurd rfl hu
    · rw [setQueue_parked]
      exact h.gone
    · rw [setQueue_queues, if_neg]
      · exact h.heads o (List.mem_cons_of_mem _ ho)
      · rintro ⟨_, rfl⟩
        exact hnew ho
  unfold State.pop
  rw [hqueue]
  dsimp only
  split
  · exact hpopped.trims (trims_maybeReturnHome site w object)
  · exact hpopped.trims (trims_serviceFront site w object)

theorem Parked.take_acquired (p : Parked ι) (hf : p.frontier = none) :
    p.participants.val.take p.acquired = p.participants.val :=
  List.take_of_length_le (List.getElem?_eq_none_iff.mp hf)

theorem trims_refreshes (objects : List ι) (s : State ι) :
    Trims s (objects.foldl (fun s o => s.refreshIfStale e w o) s) := by
  induction objects generalizing s with
  | nil => exact .refl s
  | cons o objects ih => exact (trims_refreshIfStale w o).trans (ih _)

/-- A transaction that ran holds all its heads. -/
theorem Sound.perform (hs : Sound home Nobody s) {p : Parked ι}
    (hp : (s.workers w).parked t = some p) (hf : p.frontier = none) :
    Popping home w t p.participants.val (s.perform e w t p) := by
  have hheld := hs.held w t p hp
  rw [p.take_acquired hf] at hheld
  have hstart : Popping home w t p.participants.val (s.setParked w t none) :=
    ⟨⟨hs.unpark hp, by simp [setParked_parked]⟩, p.participants.property.imp ne_of_lt,
      fun o ho => by rw [setParked_queues]; exact hheld o ho⟩
  unfold State.perform
  dsimp only
  refine hstart.trims (Trims.trans ?_ (trims_apply w p))
  split
  · refine Trims.trans ?_ (trims_refreshes _ _)
    exact trims_update w rfl
  · exact trims_update w rfl

theorem Sound.runAndComplete (hs : Sound home Nobody s) {p : Parked ι}
    (hp : (s.workers w).parked t = some p) (hf : p.frontier = none) :
    Sound home Nobody (s.runAndComplete site e w t p).2 := by
  have hpopped : Popping home w t [] (s.execute site e w t p).2 :=
    gather_induction (fun _ _ _ h => h.pop) p.participants.val (hs.perform hp hf)
  have hleft : Sound home Nobody (s.execute site e w t p).2 :=
    hpopped.sound.weaken fun v u o hX _ => absurd hX.2.2 List.not_mem_nil
  exact hleft.trims (trims_maybeLaunch site w)

end Fafo.Acquire
