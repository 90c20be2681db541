import Fafo.BoatsKept

/-! Who is still to be driven: what each part of a handler wakes. -/
namespace Fafo.Acquire

open Ownership (TransferMeta)

variable {ι : Type} [LinearOrder ι] {site : Site ι} {e : Env ι} {s s' s'' : State ι} {w t : Nat}
  {object : ι} {R : List Nat} {U U' : ι → Prop}

/-- Why a parked transaction need not be driven: it is activating or taking, or it stands behind
another entry at its frontier. The heads at `U` are still to be served. -/
inductive Rests (s : State ι) (w : Nat) (U : ι → Prop) (t : Nat) (p : Parked ι) : Prop
  | activating (ha : p.activating = true)
  | taking (ht : p.taking = true)
  | queued {object : ι} (hf : p.frontier = some object)
      (hmem : .txn t ∈ (s.workers w).queues object)
      (hbehind : ((s.workers w).queues object).head? ≠ some (.txn t) ∨ U object)

/-- Its activation and its take are under way. -/
def Asked (s : State ι) (w t : Nat) (p : Parked ι) : Prop :=
  (p.activating = true → ∃ f ∈ s.fetches, f.worker = w ∧ f.txn = t) ∧
    (p.taking = true → ∃ k ∈ s.tasks, k.worker = w ∧ k.txn = t)

/-- Whatever could go on at a worker is among the transactions `R` to be driven, or stands at the
head of a queue of `U` to be served. -/
structure Awake (s : State ι) (w : Nat) (R : List Nat) (U : ι → Prop) : Prop where
  takes : ∀ o taker resp, ((s.workers w).queues o).head? = some (.take taker resp) →
    (s.workers w).boats.unshipped o = true ∨ U o
  asked : ∀ t p, (s.workers w).parked t = some p → Asked s w t p
  rests : ∀ t p, (s.workers w).parked t = some p → t ∈ R ∨ Rests s w U t p

theorem Rests.of_queues {p : Parked ι} (h : Rests s w U t p)
    (hqueues : (s'.workers w).queues = (s.workers w).queues) (hU : ∀ o, U o → U' o) :
    Rests s' w U' t p := by
  cases h with
  | activating ha => exact .activating ha
  | taking ht => exact .taking ht
  | queued hf hmem hbehind =>
    rw [← hqueues] at hmem hbehind
    exact .queued hf hmem (hbehind.imp_right (hU _))

theorem Awake.mono {R' : List Nat} (h : Awake s w R U) (hR : ∀ t ∈ R, t ∈ R')
    (hU : ∀ o, U o → U' o) : Awake s w R' U' where
  takes o taker resp hhead := (h.takes o taker resp hhead).imp_right (hU o)
  asked := h.asked
  rests t p hp := (h.rests t p hp).imp (hR t) fun hrests => hrests.of_queues rfl hU

/-- Who is not parked need not be driven. -/
theorem Awake.gone (h : Awake s w R U) {R' : List Nat}
    (hR : ∀ t ∈ R, t ∈ R' ∨ (s.workers w).parked t = none) : Awake s w R' U where
  takes := h.takes
  asked := h.asked
  rests t p hp := by
    refine (h.rests t p hp).imp_left fun hmem => (hR t hmem).resolve_right ?_
    rw [hp]
    exact nofun

/-- Nothing is to be served where nobody stands. -/
theorem Awake.served (h : Awake s w R U) (hU : ∀ o, U o → U' o ∨ (s.workers w).queues o = []) :
    Awake s w R U' where
  takes o taker resp hhead := by
    refine (h.takes o taker resp hhead).imp_right fun hu => (hU o hu).resolve_right ?_
    intro hempty
    rw [hempty] at hhead
    cases hhead
  asked := h.asked
  rests t p hp := by
    refine (h.rests t p hp).imp_right fun hrests => ?_
    cases hrests with
    | activating ha => exact .activating ha
    | taking ht => exact .taking ht
    | @queued o hf hmem hbehind =>
      refine .queued hf hmem (hbehind.imp_right fun hu => (hU o hu).resolve_right ?_)
      intro hempty
      rw [hempty] at hmem
      cases hmem

/-- Nothing of the other workers changes but where their takes stand. -/
structure Apart (w : Nat) (s s' : State ι) : Prop where
  workers : Alone w s s'
  fetches : ∀ f ∈ s.fetches, f.worker ≠ w → f ∈ s'.fetches
  tasks : ∀ k ∈ s.tasks, k.worker ≠ w → ∃ k' ∈ s'.tasks, k'.worker = k.worker ∧ k'.txn = k.txn

theorem Apart.of_same (hworkers : Alone w s s') (hfetches : s'.fetches = s.fetches)
    (htasks : s'.tasks = s.tasks) : Apart w s s' :=
  ⟨hworkers, fun f hf _ => by rwa [hfetches], fun k hk _ => ⟨k, by rwa [htasks], rfl, rfl⟩⟩

theorem Apart.refl (s : State ι) : Apart w s s := .of_same (fun _ _ => rfl) rfl rfl

theorem Apart.trans (h : Apart w s s') (h' : Apart w s' s'') : Apart w s s'' where
  workers := h.workers.trans h'.workers
  fetches f hf hw := h'.fetches f (h.fetches f hf hw) hw
  tasks k hk hw := by
    obtain ⟨k', hk', hworker, htxn⟩ := h.tasks k hk hw
    obtain ⟨k'', hk'', hworker', htxn'⟩ := h'.tasks k' hk' (by rwa [hworker])
    exact ⟨k'', hk'', hworker'.trans hworker, htxn'.trans htxn⟩

theorem Awake.apart {v : Nat} (h : Awake s v R U) (hapart : Apart w s s') (hv : v ≠ w) :
    Awake s' v R U where
  takes := by
    rw [hapart.workers v hv]
    exact h.takes
  asked t p hp := by
    rw [hapart.workers v hv] at hp
    obtain ⟨hactivating, htaking⟩ := h.asked t p hp
    refine ⟨fun ha => ?_, fun ht => ?_⟩
    · obtain ⟨f, hf, hfw, hft⟩ := hactivating ha
      exact ⟨f, hapart.fetches f hf (by rwa [hfw]), hfw, hft⟩
    · obtain ⟨k, hk, hkw, hkt⟩ := htaking ht
      obtain ⟨k', hk', hworker, htxn⟩ := hapart.tasks k hk (by rwa [hkw])
      exact ⟨k', hk', hworker.trans hkw, htxn.trans hkt⟩
  rests t p hp := by
    rw [hapart.workers v hv] at hp
    refine (h.rests t p hp).imp_right fun hrests => ?_
    exact hrests.of_queues (by rw [hapart.workers v hv]) fun _ hu => hu

theorem apart_update (s : State ι) (worker : Worker ι) : Apart w s (s.update w worker) :=
  .of_same (alone_update s worker) rfl rfl

theorem apart_gather {f : ι → State ι → List Nat × State ι} (hf : ∀ o s, Apart w s (f o s).2)
    (objects : List ι) (s : State ι) : Apart w s (s.gather f objects).2 := by
  induction objects generalizing s with
  | nil => exact .refl s
  | cons o objects ih => exact (hf o s).trans (ih _)

/-- Only the worker changes, and none of its flags is cleared. -/
structure Spares (w : Nat) (s s' : State ι) : Prop extends Apart w s s' where
  flagged : ∀ o ∈ (s.workers w).needsService, o ∈ (s'.workers w).needsService

theorem Spares.refl (s : State ι) : Spares w s s := ⟨.refl s, fun _ ho => ho⟩

theorem Spares.trans (h : Spares w s s') (h' : Spares w s' s'') : Spares w s s'' :=
  ⟨h.toApart.trans h'.toApart, fun o ho => h'.flagged o (h.flagged o ho)⟩

theorem Spares.of_same (hworkers : s'.workers = s.workers) (hfetches : s'.fetches = s.fetches)
    (htasks : s'.tasks = s.tasks) : Spares w s s' :=
  ⟨.of_same (fun _ _ => by rw [hworkers]) hfetches htasks, fun _ ho => by rwa [hworkers]⟩

theorem spares_update (s : State ι) {worker : Worker ι}
    (h : ∀ o ∈ (s.workers w).needsService, o ∈ worker.needsService) :
    Spares w s (s.update w worker) :=
  ⟨apart_update s worker, fun o ho => by
    rw [update_self]
    exact h o ho⟩

/-- The worker's queues, its parked transactions, their fetches and their takes stay. -/
structure Keeps (w : Nat) (s s' : State ι) : Prop extends Spares w s s' where
  locks : (s'.workers w).toLocks = (s.workers w).toLocks
  fetched : s'.fetches = s.fetches
  taken : s'.tasks = s.tasks

theorem Keeps.refl (s : State ι) : Keeps w s s := ⟨.refl s, rfl, rfl, rfl⟩

theorem Keeps.trans (h : Keeps w s s') (h' : Keeps w s' s'') : Keeps w s s'' where
  toSpares := h.toSpares.trans h'.toSpares
  locks := h'.locks.trans h.locks
  fetched := h'.fetched.trans h.fetched
  taken := h'.taken.trans h.taken

theorem keeps_update {worker : Worker ι} (h : worker.toLocks = (s.workers w).toLocks)
    (hflagged : ∀ o ∈ (s.workers w).needsService, o ∈ worker.needsService) :
    Keeps w s (s.update w worker) where
  toSpares := spares_update s hflagged
  locks := by rw [update_self, h]
  fetched := rfl
  taken := rfl

theorem Asked.of_same {p : Parked ι} (h : Asked s w t p) (hfetches : s'.fetches = s.fetches)
    (htasks : s'.tasks = s.tasks) : Asked s' w t p := by
  rw [Asked, hfetches, htasks]
  exact h

/-- Heads stay where they are; what was unshipped stays so, or is to be served. -/
theorem Awake.keeps (h : Awake s w R U) (hkeeps : Keeps w s s') (hU : ∀ o, U o → U' o)
    (hunshipped : ∀ o taker resp, ((s.workers w).queues o).head? = some (.take taker resp) →
      (s.workers w).boats.unshipped o = true →
      (s'.workers w).boats.unshipped o = true ∨ U' o) : Awake s' w R U' where
  takes o taker resp hhead := by
    rw [hkeeps.locks] at hhead
    rcases h.takes o taker resp hhead with hship | hu
    · exact hunshipped o taker resp hhead hship
    · exact .inr (hU o hu)
  asked t p hp := by
    rw [hkeeps.locks] at hp
    exact (h.asked t p hp).of_same hkeeps.fetched hkeeps.taken
  rests t p hp := by
    rw [hkeeps.locks] at hp
    exact (h.rests t p hp).imp_right fun hrests => hrests.of_queues (by rw [hkeeps.locks]) hU

theorem Awake.of_same (h : Awake s w R U)
    (hqueues : (s'.workers w).queues = (s.workers w).queues)
    (hparked : (s'.workers w).parked = (s.workers w).parked)
    (hboats : (s'.workers w).boats = (s.workers w).boats) (hfetches : s'.fetches = s.fetches)
    (htasks : s'.tasks = s.tasks) : Awake s' w R U where
  takes := by
    rw [hqueues, hboats]
    exact h.takes
  asked t p hp := by
    rw [hparked] at hp
    exact (h.asked t p hp).of_same hfetches htasks
  rests t p hp := by
    rw [hparked] at hp
    exact (h.rests t p hp).imp_right fun hrests => hrests.of_queues hqueues fun _ hu => hu

/-- Neither the locks nor the boats change. -/
theorem Awake.calm (h : Awake s w R U) (hkeeps : Keeps w s s')
    (hboats : (s'.workers w).boats = (s.workers w).boats) : Awake s' w R U :=
  h.of_same (by rw [hkeeps.locks]) (by rw [hkeeps.locks]) hboats hkeeps.fetched hkeeps.taken

theorem Awake.setReady (h : Awake s w R U) (ready : Option (List Nat)) :
    Awake (s.setReady w ready) w R U :=
  h.calm (keeps_update rfl fun _ ho => ho) (by rw [State.setReady, update_self])

section Parts

variable (site) (w) (object)

theorem keeps_answer (s : State ι) (resp : Nat) (a : Answer) : Keeps w s (s.answer resp a) :=
  ⟨.of_same rfl rfl rfl, rfl, rfl, rfl⟩

theorem keeps_bounce (a : Answer) (entries : List Entry) (s : State ι) :
    Keeps w s (s.bounce a entries) := by
  induction entries generalizing s with
  | nil => exact .refl s
  | cons entry entries ih =>
    cases entry with
    | txn t => exact ih s
    | take taker resp => exact (keeps_answer w s resp a).trans (ih _)

theorem keeps_release (dest : Nat) : Keeps w s (s.release site e w object dest).2 := by
  unfold State.release
  dsimp only
  split
  · exact keeps_update rfl fun _ ho => ho
  · exact .refl s

theorem keeps_admitDeed (tm : TransferMeta) : Keeps w s (s.admitDeed site e w object tm).2 := by
  unfold State.admitDeed
  split
  · exact keeps_update rfl fun _ ho => ho
  · exact .refl s

theorem keeps_maybeReturnHome : Keeps w s (s.maybeReturnHome site e w object) := by
  unfold State.maybeReturnHome
  dsimp only
  split
  · exact .refl s
  split
  · exact .refl s
  split
  · exact .refl s
  next home _ _ =>
  have hrelease := keeps_release site w object (e := e) (s := s) home
  split
  · next heq =>
    rw [heq] at hrelease
    exact hrelease
  · next heq =>
    rw [heq] at hrelease
    exact hrelease.trans ⟨.of_same rfl rfl rfl, rfl, rfl, rfl⟩

theorem keeps_refreshIfStale : Keeps w s (s.refreshIfStale e w object) := by
  unfold State.refreshIfStale
  dsimp only
  split
  · exact .refl s
  · exact keeps_update rfl fun _ ho => ho

theorem keeps_finishClosing : Keeps w s (s.finishClosing w) := by
  unfold State.finishClosing
  dsimp only
  split
  · exact keeps_update rfl fun _ ho => ho
  · exact .refl s

end Parts

/-- Of the worker's locks, one queue becomes another. -/
structure Requeues (w : Nat) (object : ι) (queue : List Entry) (s s' : State ι) : Prop
    extends Spares w s s' where
  queues : (s'.workers w).queues = Function.update (s.workers w).queues object queue
  parked : (s'.workers w).parked = (s.workers w).parked
  fetched : s'.fetches = s.fetches
  taken : s'.tasks = s.tasks
  boats : (s'.workers w).boats = (s.workers w).boats

theorem requeues_setQueue (s : State ι) (queue : List Entry) :
    Requeues w object queue s (s.setQueue w object queue) where
  toSpares := spares_update s fun _ ho => ho
  queues := by rw [State.setQueue, update_self]
  parked := by rw [State.setQueue, update_self]
  fetched := rfl
  taken := rfl
  boats := by rw [State.setQueue, update_self]

theorem Requeues.keeps {queue : List Entry} (h : Requeues w object queue s s')
    (hkeeps : Keeps w s' s'') (hboats : (s''.workers w).boats = (s'.workers w).boats) :
    Requeues w object queue s s'' where
  toSpares := h.toSpares.trans hkeeps.toSpares
  queues := by rw [hkeeps.locks, h.queues]
  parked := by rw [hkeeps.locks, h.parked]
  fetched := hkeeps.fetched.trans h.fetched
  taken := hkeeps.taken.trans h.taken
  boats := hboats.trans h.boats

theorem Keeps.requeues {queue : List Entry} (hkeeps : Keeps w s s')
    (hboats : (s'.workers w).boats = (s.workers w).boats) (h : Requeues w object queue s' s'') :
    Requeues w object queue s s'' where
  toSpares := hkeeps.toSpares.trans h.toSpares
  queues := by rw [h.queues, hkeeps.locks]
  parked := by rw [h.parked, hkeeps.locks]
  fetched := h.fetched.trans hkeeps.fetched
  taken := h.taken.trans hkeeps.taken
  boats := h.boats.trans hboats

/-- A queue that is to be served becomes another: a take at its head waits for a ship, a transaction
at its head is to be driven, and so is whoever leaves it. -/
theorem Awake.requeue {queue : List Entry} {R' : List Nat}
    (h : Awake s w R fun o => U o ∨ o = object) (hrequeues : Requeues w object queue s s')
    (htake : ∀ taker resp, queue.head? = some (.take taker resp) →
      (s.workers w).boats.unshipped object = true ∨ U object)
    (hhead : ∀ t, queue.head? = some (.txn t) → t ∈ R' ∨ U object)
    (hleft : ∀ t p, (s.workers w).parked t = some p → .txn t ∈ (s.workers w).queues object →
      t ∈ R' ∨ .txn t ∈ queue) : Awake s' w (R ++ R') U where
  takes o taker resp hat := by
    rw [hrequeues.queues] at hat
    rw [hrequeues.boats]
    by_cases ho : o = object
    · subst ho
      rw [Function.update_self] at hat
      exact htake taker resp hat
    · rw [Function.update_of_ne ho] at hat
      exact (h.takes o taker resp hat).imp_right fun hu => hu.resolve_right ho
  asked t p hp := by
    rw [hrequeues.parked] at hp
    exact (h.asked t p hp).of_same hrequeues.fetched hrequeues.taken
  rests t p hp := by
    rw [hrequeues.parked] at hp
    rcases h.rests t p hp with hmem | hrests
    · exact .inl (List.mem_append_left R' hmem)
    cases hrests with
    | activating ha => exact .inr (.activating ha)
    | taking ht => exact .inr (.taking ht)
    | @queued o hf hmem hbehind =>
      by_cases ho : o = object
      · subst ho
        rcases hleft t p hp hmem with hdriven | hstays
        · exact .inl (List.mem_append_right R hdriven)
        by_cases hfirst : queue.head? = some (.txn t)
        · rcases hhead t hfirst with hdriven | hu
          · exact .inl (List.mem_append_right R hdriven)
          · refine .inr (.queued hf ?_ (.inr hu))
            rw [hrequeues.queues, Function.update_self]
            exact hstays
        · refine .inr (.queued hf ?_ (.inl ?_))
          · rw [hrequeues.queues, Function.update_self]
            exact hstays
          · rw [hrequeues.queues, Function.update_self]
            exact hfirst
      · refine .inr (.queued hf ?_ ?_)
        · rw [hrequeues.queues, Function.update_of_ne ho]
          exact hmem
        · rw [hrequeues.queues, Function.update_of_ne ho]
          exact hbehind.imp_right fun hu => hu.resolve_right ho

/-- A queue that stays as it is has been served. -/
theorem Awake.serve {R' : List Nat} (h : Awake s w R fun o => U o ∨ o = object)
    (htake : ∀ taker resp, ((s.workers w).queues object).head? = some (.take taker resp) →
      (s.workers w).boats.unshipped object = true)
    (hhead : ∀ t, ((s.workers w).queues object).head? = some (.txn t) → t ∈ R') :
    Awake s w (R ++ R') U := by
  have hsame : Requeues w object ((s.workers w).queues object) s s :=
    ⟨.refl s, by rw [Function.update_eq_self], rfl, rfl, rfl, rfl⟩
  exact h.requeue hsame (fun taker resp hat => .inl (htake taker resp hat))
    (fun t hat => .inl (hhead t hat)) fun _ _ _ hmem => .inr hmem

theorem mem_txns {entries : List Entry} : t ∈ txns entries ↔ .txn t ∈ entries := by
  rw [txns, List.mem_filterMap]
  constructor
  · rintro ⟨entry, hentry, heq⟩
    cases entry with
    | txn u =>
      cases heq
      exact hentry
    | take taker resp => cases heq
  · exact fun hmem => ⟨.txn t, hmem, rfl⟩

theorem mem_txns_map {entries : List Entry} :
    .txn t ∈ (txns entries).map Entry.txn ↔ .txn t ∈ entries := by
  rw [List.mem_map, ← mem_txns]
  constructor
  · rintro ⟨u, hu, heq⟩
    cases heq
    exact hu
  · exact fun hmem => ⟨t, hmem, rfl⟩

/-- A queue that is left to its transactions drives the first of them. -/
theorem Awake.left_to_txns {taker resp : Nat} {rest : List Entry}
    (h : Awake s w R fun o => U o ∨ o = object)
    (hqueue : (s.workers w).queues object = .take taker resp :: rest)
    (hrequeues : Requeues w object ((txns rest).map .txn) s s') :
    Awake s' w (R ++ (txns rest).take 1) U := by
  refine h.requeue hrequeues (fun taker' resp' hat => ?_) (fun t hat => .inl ?_)
    fun t p _ hmem => .inr ?_
  · rw [List.head?_map] at hat
    cases hfirst : (txns rest).head? with
    | none =>
      rw [hfirst] at hat
      cases hat
    | some u =>
      rw [hfirst] at hat
      cases hat
  · rw [List.head?_map] at hat
    cases hfirst : (txns rest) with
    | nil =>
      rw [hfirst] at hat
      cases hat
    | cons u more =>
      rw [hfirst] at hat
      cases hat
      exact List.mem_cons_self
  · rw [hqueue] at hmem
    rw [mem_txns_map]
    exact (List.mem_cons.mp hmem).resolve_left nofun

theorem boats_release (s : State ι) (dest : Nat) :
    ((s.release site e w object dest).2.workers w).boats = (s.workers w).boats := by
  unfold State.release
  dsimp only
  split
  · rw [update_self]
  · rfl

/-- The take at the head of a queue is served: whoever is left behind is driven. -/
theorem Awake.grantFront (h : Awake s w R fun o => U o ∨ o = object)
    (hhead : ∀ t, ((s.workers w).queues object).head? ≠ some (.txn t)) :
    Awake (s.grantFront site e w object).2 w (R ++ (s.grantFront site e w object).1) U := by
  unfold State.grantFront
  split
  · next taker resp rest hqueue =>
    have hrelease := keeps_release site w object (e := e) (s := s) taker
    have hboats : ((s.release site e w object taker).2.workers w).boats = (s.workers w).boats :=
      boats_release s taker
    split
    · next tm r heq =>
      rw [heq] at hrelease hboats
      split
      · have hqueues : Requeues w object [] s (((r.setQueue w object []).answer resp
            (.got tm)).bounce (.notMine (some taker)) rest) := by
          refine hrelease.requeues hboats ((requeues_setQueue r []).keeps
            ((keeps_answer w _ resp _).trans (keeps_bounce w _ rest _)) ?_)
          exact (calm_bounce _ rest _).boats w
        refine h.requeue hqueues nofun nofun fun t p _ hmem => .inl ?_
        rw [hqueue] at hmem
        exact mem_txns.mpr ((List.mem_cons.mp hmem).resolve_left nofun)
      · refine h.left_to_txns hqueue (hrelease.requeues hboats ?_)
        refine (keeps_admitDeed site w object (e := e)
          { tm with generation := tm.generation + 1 }).requeues
          ((calm_admitDeed site w object _).boats w) ?_
        exact (requeues_setQueue _ _).keeps (keeps_bounce w _ rest _)
          ((calm_bounce _ rest _).boats w)
    · next r heq =>
      rw [heq] at hrelease hboats
      refine h.left_to_txns hqueue (hrelease.requeues hboats ?_)
      refine (requeues_setQueue r _).keeps ((keeps_answer w _ resp _).trans
        (keeps_bounce w _ rest _)) ?_
      exact (calm_bounce _ rest _).boats w
  · next hno =>
    refine h.serve (fun taker resp hat => ?_) fun t hat => absurd hat (hhead t)
    obtain ⟨rest, hqueue⟩ := List.head?_eq_some_iff.mp hat
    exact absurd hqueue (hno taker resp rest)

/-- Serving the head of a queue wakes whoever can go on there. -/
theorem Awake.serviceFront (h : Awake s w R fun o => U o ∨ o = object) :
    Awake (s.serviceFront site e w object).2 w (R ++ (s.serviceFront site e w object).1) U := by
  unfold State.serviceFront
  split
  · next hqueue =>
    refine h.serve (fun _ _ hat => ?_) fun _ hat => ?_
    all_goals
      rw [hqueue] at hat
      cases hat
  · next t rest hqueue =>
    refine h.serve (fun _ _ hat => ?_) fun u hat => ?_
    · rw [hqueue] at hat
      cases hat
    · rw [hqueue] at hat
      cases hat
      exact List.mem_singleton_self t
  · next taker resp rest hqueue =>
    split
    · next hship =>
      refine h.serve (fun _ _ _ => hship) fun _ hat => ?_
      rw [hqueue] at hat
      cases hat
    · refine h.grantFront fun t hat => ?_
      rw [hqueue] at hat
      cases hat

/-- One object after the other. -/
theorem awake_gather {f : ι → State ι → List Nat × State ι}
    {I : List ι → List Nat → State ι → Prop}
    (hf : ∀ o objects R s, I (o :: objects) R s → I objects (R ++ (f o s).1) (f o s).2)
    (objects : List ι) (h : I objects R s) :
    I [] (R ++ (s.gather f objects).1) (s.gather f objects).2 := by
  induction objects generalizing R s with
  | nil =>
    rw [State.gather, List.append_nil]
    exact h
  | cons o objects ih =>
    rw [State.gather, ← List.append_assoc]
    exact ih (hf o objects R s h)

section Others

variable (site) (w) (object)

theorem spares_setQueue (s : State ι) (queue : List Entry) :
    Spares w s (s.setQueue w object queue) := spares_update s fun _ ho => ho

theorem spares_setParked (s : State ι) (t : Nat) (p : Option (Parked ι)) :
    Spares w s (s.setParked w t p) := spares_update s fun _ ho => ho

theorem spares_gather {f : ι → State ι → List Nat × State ι} (hf : ∀ o s, Spares w s (f o s).2)
    (objects : List ι) (s : State ι) : Spares w s (s.gather f objects).2 := by
  induction objects generalizing s with
  | nil => exact .refl s
  | cons o objects ih => exact (hf o s).trans (ih _)

theorem spares_grantFront (s : State ι) : Spares w s (s.grantFront site e w object).2 := by
  unfold State.grantFront
  split
  · next taker resp rest _ =>
    have hrelease := (keeps_release site w object (e := e) (s := s) taker).toSpares
    split
    · next tm r heq =>
      rw [heq] at hrelease
      split
      · refine hrelease.trans ((spares_setQueue w object r []).trans ?_)
        exact ((keeps_answer w _ resp _).trans (keeps_bounce w _ rest _)).toSpares
      · refine hrelease.trans ((keeps_admitDeed site w object (e := e)
            { tm with generation := tm.generation + 1 }).toSpares.trans ?_)
        exact (spares_setQueue w object _ _).trans (keeps_bounce w _ rest _).toSpares
    · next r heq =>
      rw [heq] at hrelease
      refine hrelease.trans ((spares_setQueue w object r ((txns rest).map .txn)).trans ?_)
      exact ((keeps_answer w _ resp _).trans (keeps_bounce w _ rest _)).toSpares
  · exact .refl s

theorem spares_serviceFront (s : State ι) : Spares w s (s.serviceFront site e w object).2 := by
  unfold State.serviceFront
  split
  · exact .refl s
  · exact .refl s
  · split
    · exact .refl s
    · exact spares_grantFront site w object s

end Others

end Fafo.Acquire
