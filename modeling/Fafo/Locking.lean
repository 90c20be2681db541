import Fafo.Waiting

/-! What each part of a handler does to the queues, the parked transactions and the takes. -/
namespace Fafo.Acquire

open Ownership (TransferMeta)

variable {ι : Type} [LinearOrder ι] {site : Site ι} {e : Env ι} {s s' s'' : State ι}
  {home : Nat → ι → Prop} {X : Nat → Nat → ι → Prop}

/-- At most, queues with a take at their head lose entries. -/
structure Trims (s s' : State ι) : Prop where
  parked : ∀ w, (s'.workers w).parked = (s.workers w).parked
  nextTxn : ∀ w, (s'.workers w).nextTxn = (s.workers w).nextTxn
  tasks : s'.tasks = s.tasks
  asks : s'.asks = s.asks
  nextResp : s'.nextResp = s.nextResp
  queue : ∀ w object, (s'.workers w).queues object = (s.workers w).queues object ∨
    ∃ taker resp rest, (s.workers w).queues object = .take taker resp :: rest ∧
      ((s'.workers w).queues object).Sublist rest

/-- Nothing changes that counts here. -/
theorem Trims.same (hworkers : s'.workers = s.workers) (htasks : s'.tasks = s.tasks)
    (hasks : s'.asks = s.asks) (hresp : s'.nextResp = s.nextResp) : Trims s s' :=
  ⟨fun _ => by rw [hworkers], fun _ => by rw [hworkers], htasks, hasks, hresp,
    fun _ _ => .inl (by rw [hworkers])⟩

theorem Trims.refl (s : State ι) : Trims s s := .same rfl rfl rfl rfl

theorem Trims.sublist (h : Trims s s') (w : Nat) (object : ι) :
    ((s'.workers w).queues object).Sublist ((s.workers w).queues object) := by
  rcases h.queue w object with heq | ⟨taker, resp, rest, heq, hsub⟩
  · rw [heq]
  · rw [heq]
    exact hsub.cons _

theorem Trims.trans (h : Trims s s') (h' : Trims s' s'') : Trims s s'' where
  parked w := (h'.parked w).trans (h.parked w)
  nextTxn w := (h'.nextTxn w).trans (h.nextTxn w)
  tasks := h'.tasks.trans h.tasks
  asks := h'.asks.trans h.asks
  nextResp := h'.nextResp.trans h.nextResp
  queue w object := by
    rcases h.queue w object with heq | ⟨taker, resp, rest, heq, hsub⟩
    · rw [← heq]
      exact h'.queue w object
    · exact .inr ⟨taker, resp, rest, heq, (h'.sublist w object).trans hsub⟩

/-- A queue with a transaction at its head is left alone. -/
theorem Trims.head (h : Trims s s') {w t : Nat} {object : ι}
    (ht : ((s.workers w).queues object).head? = some (.txn t)) :
    (s'.workers w).queues object = (s.workers w).queues object := by
  rcases h.queue w object with heq | ⟨taker, resp, rest, heq, _⟩
  · exact heq
  · rw [heq] at ht
    cases ht

theorem Asking.trims (h : Trims s s') {k : TakeTask ι} (hk : Asking s' k) : Asking s k := by
  obtain ⟨owner, resp, attempt, x, hphase, hmem⟩ := hk
  exact ⟨owner, resp, attempt, x, hphase, (h.sublist x k.object).subset hmem⟩

theorem Standing.trims (h : Trims s s') {k : TakeTask ι} (hk : Standing s' k) : Standing s k := by
  obtain ⟨p, hp, hf, hmem⟩ := hk
  exact ⟨p, by rwa [h.parked] at hp, hf, (h.sublist k.worker k.object).subset hmem⟩

theorem Sound.trims (hs : Sound home X s) (h : Trims s s') : Sound home X s' where
  nodup w object := (hs.nodup w object).sublist ((h.sublist w object).map _)
  entry w t object hmem := by
    rw [h.parked]
    exact hs.entry w t object ((h.sublist w object).subset hmem)
  held w t p hp object hmem := by
    rw [h.parked] at hp
    have hhead := hs.held w t p hp object hmem
    rwa [h.head hhead]
  fresh w t p hp := by
    rw [h.parked] at hp
    rw [h.nextTxn]
    exact hs.fresh w t p hp
  foreign w object taker resp hmem := by
    rw [h.nextResp]
    exact hs.foreign w object taker resp ((h.sublist w object).subset hmem)
  asked a ha := by
    rw [h.asks] at ha
    rw [h.nextResp]
    obtain ⟨hne, hlt, hout⟩ := hs.asked a ha
    exact ⟨hne, hlt, fun w object taker hmem =>
      hout w object taker ((h.sublist w object).subset hmem)⟩
  asks_nodup := h.asks ▸ hs.asks_nodup
  tasks_nodup := h.tasks ▸ hs.tasks_nodup
  taking k hk := by
    rw [h.tasks] at hk
    rw [h.nextTxn, h.parked]
    exact hs.taking k hk
  apart k hk hasking hstanding := by
    rw [h.tasks] at hk
    exact hs.apart k hk (hasking.trims h) (hstanding.trims h)

section Update

variable (site) (w : Nat) (object : ι)

@[simp] theorem update_workers (s : State ι) (worker : Worker ι) :
    (s.update w worker).workers = Function.update s.workers w worker := rfl

theorem trims_update {worker : Worker ι} (h : worker.toLocks = (s.workers w).toLocks) :
    Trims s (s.update w worker) := by
  have hlocks : ∀ v, ((s.update w worker).workers v).toLocks = (s.workers v).toLocks := by
    intro v
    rw [update_workers]
    by_cases hv : v = w
    · subst hv
      rw [Function.update_self, h]
    · rw [Function.update_of_ne hv]
  exact ⟨fun v => by rw [hlocks], fun v => by rw [hlocks], rfl, rfl, rfl,
    fun v o => .inl (by rw [hlocks])⟩

theorem trims_setReady (s : State ι) (ready : Option (List Nat)) : Trims s (s.setReady w ready) :=
  trims_update w rfl

theorem trims_answer (s : State ι) (resp : Nat) (a : Answer) : Trims s (s.answer resp a) :=
  .same rfl rfl rfl rfl

theorem trims_bounce (a : Answer) (entries : List Entry) (s : State ι) :
    Trims s (s.bounce a entries) := by
  induction entries generalizing s with
  | nil => exact .refl s
  | cons entry entries ih =>
    cases entry with
    | txn t => exact ih s
    | take taker resp => exact (trims_answer s resp a).trans (ih _)

theorem trims_release (dest : Nat) : Trims s (s.release site e w object dest).2 := by
  unfold State.release
  split
  · exact trims_update w rfl
  · exact .refl s

theorem trims_admitDeed (tm : TransferMeta) : Trims s (s.admitDeed site e w object tm).2 := by
  unfold State.admitDeed
  split
  · exact trims_update w rfl
  · exact .refl s

theorem trims_maybeReturnHome : Trims s (s.maybeReturnHome site e w object) := by
  unfold State.maybeReturnHome
  dsimp only
  split
  · exact .refl s
  split
  · exact .refl s
  split
  · exact .refl s
  next home _ _ =>
  have hrelease := trims_release site (e := e) (s := s) w object home
  split
  · next heq =>
    rw [heq] at hrelease
    exact hrelease
  · next heq =>
    rw [heq] at hrelease
    exact hrelease.trans (.same rfl rfl rfl rfl)

theorem trims_revertClosure (seed : List ι) : Trims s (s.revertClosure w seed) :=
  trims_update w rfl

theorem trims_maybeLaunch : Trims s (s.maybeLaunch site e w) := by
  have hrevert : Trims s (s.revertOrphaned e w) := by
    unfold State.revertOrphaned
    dsimp only
    split
    · exact .refl s
    · exact trims_revertClosure w _
  refine hrevert.trans ?_
  unfold State.maybeLaunch State.launch
  dsimp only
  split
  · exact .refl _
  split
  · split
    · exact trims_update w rfl
    · exact trims_update w rfl
  · exact trims_update w rfl

theorem trims_finishClosing : Trims s (s.finishClosing w) := by
  unfold State.finishClosing
  dsimp only
  split
  · exact trims_update w rfl
  · exact .refl s

theorem trims_shutdown : Trims s (s.shutdown site e w) := by
  have hclosing : Trims s (s.update w { s.workers w with closing := true }) := trims_update w rfl
  have hlaunch := hclosing.trans (trims_maybeLaunch site (e := e) w)
  unfold State.shutdown
  dsimp only
  split
  · exact hlaunch
  · exact hlaunch.trans (trims_finishClosing w)

theorem trims_apply (p : Parked ι) : Trims s (s.apply e w p) := by
  unfold State.apply
  dsimp only
  split
  · exact .refl s
  split
  · exact .refl s
  · split
    · exact .refl s
    · exact trims_revertClosure w _
  · split
    · exact .refl s
    · exact trims_update w rfl

theorem trims_refreshIfStale : Trims s (s.refreshIfStale e w object) := by
  unfold State.refreshIfStale
  dsimp only
  split
  · exact .refl s
  · exact trims_update w rfl

theorem trims_relinquish : Trims s (s.relinquish e w object) := by
  unfold State.relinquish
  dsimp only
  split
  · split
    · exact trims_update w rfl
    · exact .refl s
  · split
    · exact trims_update w rfl
    · exact .refl s
  · exact .refl s

theorem trims_gather {f : ι → State ι → List Nat × State ι}
    (hf : ∀ object s, Trims s (f object s).2) (objects : List ι) (s : State ι) :
    Trims s (s.gather f objects).2 := by
  induction objects generalizing s with
  | nil => exact .refl s
  | cons object objects ih => exact (hf object s).trans (ih _)

/-- A queue with a take at its head is cut down to entries behind it. -/
theorem trims_setQueue {taker resp : Nat} {rest queue : List Entry}
    (hqueue : (s.workers w).queues object = .take taker resp :: rest) (hsub : queue.Sublist rest) :
    Trims s (s.setQueue w object queue) := by
  refine ⟨fun v => ?_, fun v => ?_, rfl, rfl, rfl, fun v o => ?_⟩
  · by_cases hv : v = w
    · subst hv
      simp [State.setQueue]
    · simp [State.setQueue, Function.update_of_ne hv]
  · by_cases hv : v = w
    · subst hv
      simp [State.setQueue]
    · simp [State.setQueue, Function.update_of_ne hv]
  · by_cases hv : v = w
    · subst hv
      by_cases ho : o = object
      · subst ho
        exact .inr ⟨taker, resp, rest, hqueue, by simpa [State.setQueue] using hsub⟩
      · exact .inl (by simp [State.setQueue, Function.update_of_ne ho])
    · exact .inl (by simp [State.setQueue, Function.update_of_ne hv])

theorem txns_sublist (entries : List Entry) :
    ((txns entries).map Entry.txn).Sublist entries := by
  induction entries with
  | nil => exact .slnil
  | cons entry entries ih =>
    cases entry with
    | txn t => exact ih.cons_cons _
    | take taker resp => exact ih.cons _

theorem queues_release (dest v : Nat) (o : ι) :
    ((s.release site e w object dest).2.workers v).queues o = (s.workers v).queues o := by
  unfold State.release
  split
  · by_cases hv : v = w
    · subst hv
      simp
    · simp [Function.update_of_ne hv]
  · rfl

theorem queues_admitDeed (tm : TransferMeta) (v : Nat) (o : ι) :
    ((s.admitDeed site e w object tm).2.workers v).queues o = (s.workers v).queues o := by
  unfold State.admitDeed
  split
  · by_cases hv : v = w
    · subst hv
      simp [State.install]
    · simp [State.install, Function.update_of_ne hv]
  · rfl

theorem trims_grantFront : Trims s (s.grantFront site e w object).2 := by
  unfold State.grantFront
  split
  · next taker resp rest hqueue =>
    have hrelease := trims_release site (e := e) (s := s) w object taker
    have hkept := queues_release site (e := e) (s := s) w object taker w object
    split
    · next tm r heq =>
      rw [heq] at hrelease hkept
      rw [hqueue] at hkept
      split
      · refine hrelease.trans ((trims_setQueue w object hkept (List.nil_sublist rest)).trans ?_)
        exact (trims_answer _ resp _).trans (trims_bounce _ rest _)
      · have hreclaimed := trims_admitDeed site (e := e) (s := r) w object
          { tm with generation := tm.generation + 1 }
        have hcut := hkept
        rw [← queues_admitDeed site (e := e) w object
          { tm with generation := tm.generation + 1 }] at hcut
        refine hrelease.trans (hreclaimed.trans ?_)
        exact (trims_setQueue w object hcut (txns_sublist rest)).trans (trims_bounce _ rest _)
    · next r heq =>
      rw [heq] at hrelease hkept
      rw [hqueue] at hkept
      refine hrelease.trans ((trims_setQueue w object hkept (txns_sublist rest)).trans ?_)
      exact (trims_answer _ resp _).trans (trims_bounce _ rest _)
  · exact .refl s

theorem trims_serviceFront : Trims s (s.serviceFront site e w object).2 := by
  unfold State.serviceFront
  split
  · exact .refl s
  · exact .refl s
  · split
    · exact .refl s
    · exact trims_grantFront site w object

theorem trims_adoptForTake : Trims s (s.adoptForTake site e w object).2 := by
  unfold State.adoptForTake
  split
  · exact .refl s
  next generation _ =>
  have hadmitted := trims_admitDeed site (e := e) (s := s) w object ⟨false, w, none, generation⟩
  split
  · next heq _ =>
    rw [heq] at hadmitted
    exact hadmitted
  · next heq _ =>
    rw [heq] at hadmitted
    exact hadmitted.trans (trims_update w rfl)
  · next heq =>
    rw [heq] at hadmitted
    exact hadmitted

/-- A worker that admits an object for a take accepts it. -/
theorem accepts_of_adoptForTake {s : State ι} (h : (s.adoptForTake site e w object).1 = true) :
    ∃ generation, State.adoptGeneration site w object (e.claim object) = some generation ∧
      s.accepts site e w object ⟨false, w, none, generation⟩ = true := by
  unfold State.adoptForTake at h
  split at h
  · cases h
  next generation hgeneration =>
  refine ⟨generation, hgeneration, ?_⟩
  by_contra hrefused
  rw [State.admitDeed, if_neg hrefused] at h
  cases h

theorem trims_settle : Trims s (s.settle site e w object).2 := by
  unfold State.settle
  split
  · exact trims_serviceFront site w object
  · split
    · exact .refl s
    · exact trims_maybeReturnHome site w object

theorem trims_reconcile (rebased : Option ι) : Trims s (s.reconcile e w rebased) := by
  unfold State.reconcile
  split
  · exact trims_relinquish w _
  · exact .refl s

theorem trims_landed (ok : Bool) (unpromoted objects : List ι) :
    Trims s (s.landed e w ok unpromoted objects) := by
  unfold State.landed
  dsimp only
  split
  · split
    · exact .refl s
    · exact trims_update w rfl
  · exact trims_revertClosure w objects

theorem trims_arrive (ok : Bool) (unpromoted : List ι) (rebased : Option ι) (objects : List ι) :
    Trims s (s.arrive e w ok unpromoted rebased objects) := by
  have hempty : Trims s (s.update w { s.workers w with
      boats := { (s.workers w).boats with inflight := none } }) := trims_update w rfl
  exact hempty.trans ((trims_reconcile w rebased).trans (trims_landed w ok unpromoted objects))

theorem trims_onShipDone (ok : Bool) (unpromoted : List ι) (rebased : Option ι) :
    Trims s (s.onShipDone site e w ok unpromoted rebased) := by
  unfold State.onShipDone
  split
  · exact .refl s
  next objects _ =>
  have hlaunched := (trims_arrive (e := e) (s := s) w ok unpromoted rebased objects).trans
    (trims_maybeLaunch site (e := e) w)
  dsimp only
  split
  · exact hlaunched
  · exact hlaunched.trans ((trims_gather (fun o _ => trims_settle site w o) _ _).trans
      ((trims_finishClosing w).trans (trims_setReady w _ _)))

end Update

end Fafo.Acquire
