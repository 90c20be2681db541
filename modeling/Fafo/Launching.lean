import Fafo.Bookkeeping
import Fafo.Locking

/-! Which steps launch a boat, and what all the others leave alone. -/
namespace Fafo.Acquire

open Ownership (TransferMeta)

variable {ι : Type} [LinearOrder ι] {site : Site ι} {e : Env ι} {s s' s'' : State ι}

/-- The boats stay as they are, and what is dirty stays live. -/
structure Calm (s s' : State ι) : Prop where
  boats : ∀ w, (s'.workers w).boats = (s.workers w).boats
  live : ∀ w o, o ∈ (s.workers w).boats.dirty → (s.workers w).live o = true →
    (s'.workers w).live o = true
  panicked : ∀ w, (s'.workers w).panicked = (s.workers w).panicked

theorem Calm.refl (s : State ι) : Calm s s := ⟨fun _ => rfl, fun _ _ _ h => h, fun _ => rfl⟩

theorem Calm.of_workers (h : s'.workers = s.workers) : Calm s s' :=
  ⟨fun _ => by rw [h], fun _ _ _ hlive => by rwa [h], fun _ => by rw [h]⟩

theorem Calm.trans (h : Calm s s') (h' : Calm s' s'') : Calm s s'' where
  boats w := (h'.boats w).trans (h.boats w)
  live w o ho hlive := h'.live w o (by rwa [h.boats]) (h.live w o ho hlive)
  panicked w := (h'.panicked w).trans (h.panicked w)

theorem Calm.from_workers (h : Calm s' s'') (hworkers : s'.workers = s.workers) : Calm s s'' :=
  (Calm.of_workers hworkers).trans h

section Parts

variable (site) (w : Nat) (object : ι)

theorem calm_update {worker : Worker ι} (hboats : worker.boats = (s.workers w).boats)
    (hlive : ∀ o ∈ (s.workers w).boats.dirty, (s.workers w).live o = true → worker.live o = true)
    (hpanicked : worker.panicked = (s.workers w).panicked) : Calm s (s.update w worker) := by
  refine ⟨fun v => ?_, fun v o ho hl => ?_, fun v => ?_⟩
  all_goals rw [update_workers]; by_cases hv : v = w
  · rw [hv, Function.update_self, hboats]
  · rw [Function.update_of_ne hv]
  · subst hv
    rw [Function.update_self]
    exact hlive o ho hl
  · rwa [Function.update_of_ne hv]
  · rw [hv, Function.update_self, hpanicked]
  · rw [Function.update_of_ne hv]

theorem calm_setReady (s : State ι) (ready : Option (List Nat)) : Calm s (s.setReady w ready) :=
  calm_update w rfl (fun _ _ h => h) rfl

theorem calm_setParked (s : State ι) (t : Nat) (p : Option (Parked ι)) :
    Calm s (s.setParked w t p) := calm_update w rfl (fun _ _ h => h) rfl

theorem calm_setQueue (s : State ι) (queue : List Entry) : Calm s (s.setQueue w object queue) :=
  calm_update w rfl (fun _ _ h => h) rfl

theorem calm_answer (s : State ι) (resp : Nat) (a : Answer) : Calm s (s.answer resp a) :=
  .of_workers rfl

theorem calm_bounce (a : Answer) (entries : List Entry) (s : State ι) :
    Calm s (s.bounce a entries) := by
  induction entries generalizing s with
  | nil => exact .refl s
  | cons entry entries ih =>
    cases entry with
    | txn t => exact ih s
    | take taker resp => exact (calm_answer s resp a).trans (ih _)

theorem calm_gather {f : ι → State ι → List Nat × State ι} (hf : ∀ o s, Calm s (f o s).2)
    (objects : List ι) (s : State ι) : Calm s (s.gather f objects).2 := by
  induction objects generalizing s with
  | nil => exact .refl s
  | cons o objects ih => exact (hf o s).trans (ih _)

/-- Only what is not dirty is released. -/
theorem calm_release (dest : Nat) (h : object ∉ (s.workers w).boats.dirty) :
    Calm s (s.release site e w object dest).2 := by
  unfold State.release
  split
  · refine calm_update w rfl (fun o ho hlive => ?_) rfl
    have hne : o ≠ object := fun heq => h (heq ▸ ho)
    simpa only [Function.update_of_ne hne] using hlive
  · exact .refl s

theorem calm_admitDeed (tm : TransferMeta) : Calm s (s.admitDeed site e w object tm).2 := by
  unfold State.admitDeed
  split
  · refine calm_update w rfl (fun o ho hlive => ?_) rfl
    dsimp only
    split
    · next hdrop =>
      have hne : o ≠ object := by
        rintro rfl
        simp only [Bool.and_eq_true, Option.isNone_iff_eq_none] at hdrop
        exact AList.lookup_eq_none.mp hdrop.2 ho
      rwa [Function.update_of_ne hne]
    · exact hlive
  · exact .refl s

theorem notMem_dirty_of_not_unshipped (h : ¬ (s.workers w).boats.unshipped object = true) :
    object ∉ (s.workers w).boats.dirty := by
  intro hmem
  refine h ?_
  rw [Boats.unshipped, AList.lookup_isSome.mpr hmem]
  rfl

theorem calm_maybeReturnHome : Calm s (s.maybeReturnHome site e w object) := by
  unfold State.maybeReturnHome
  dsimp only
  split
  · exact .refl s
  next hclean =>
  split
  · exact .refl s
  split
  · exact .refl s
  next home _ _ =>
  have hrelease := calm_release site (e := e) w object home
    (notMem_dirty_of_not_unshipped w object hclean)
  split
  · next heq =>
    rw [heq] at hrelease
    exact hrelease
  · next heq =>
    rw [heq] at hrelease
    exact hrelease.trans (.of_workers rfl)

theorem calm_grantFront (h : object ∉ (s.workers w).boats.dirty) :
    Calm s (s.grantFront site e w object).2 := by
  unfold State.grantFront
  split
  · next taker resp rest _ =>
    have hrelease := calm_release site (e := e) w object taker h
    split
    · next tm r heq =>
      rw [heq] at hrelease
      split
      · refine hrelease.trans ((calm_setQueue w object r []).trans ?_)
        exact (calm_answer _ resp _).trans (calm_bounce _ rest _)
      · refine hrelease.trans ((calm_admitDeed site (e := e) w object
          { tm with generation := tm.generation + 1 }).trans ?_)
        exact (calm_setQueue w object _ _).trans (calm_bounce _ rest _)
    · next r heq =>
      rw [heq] at hrelease
      refine hrelease.trans ((calm_setQueue w object r ((txns rest).map .txn)).trans ?_)
      exact (calm_answer _ resp _).trans (calm_bounce _ rest _)
  · exact .refl s

theorem calm_serviceFront : Calm s (s.serviceFront site e w object).2 := by
  unfold State.serviceFront
  split
  · exact .refl s
  · exact .refl s
  · split
    · exact .refl s
    · next hclean =>
        exact calm_grantFront site w object (notMem_dirty_of_not_unshipped w object hclean)

theorem calm_leave (t : Nat) : Calm s (s.leave site e w t object).2 := by
  unfold State.leave
  split
  · exact .refl s
  · dsimp only
    split
    · exact calm_setQueue w object s _
    · exact (calm_setQueue w object s _).trans (calm_serviceFront site w object)

theorem calm_failTxn (t : Nat) : Calm s (s.failTxn site e w t).2 := by
  unfold State.failTxn
  split
  · exact .refl s
  · exact (calm_setParked w s t none).trans (calm_gather (fun o _ => calm_leave site w o t) _ _)

theorem calm_failAndPump (t : Nat) : Calm s (s.failAndPump site e w t) :=
  (calm_failTxn site w t).trans (calm_setReady w _ _)

theorem calm_refreshIfStale : Calm s (s.refreshIfStale e w object) := by
  unfold State.refreshIfStale
  dsimp only
  split
  · exact .refl s
  · refine calm_update w rfl (fun o _ hlive => ?_) rfl
    dsimp only
    rw [Function.update_apply]
    split
    · rfl
    · exact hlive

theorem calm_pop : Calm s (s.pop site e w object).2 := by
  unfold State.pop
  split
  · exact .refl s
  · dsimp only
    split
    · exact (calm_setQueue w object s _).trans (calm_maybeReturnHome site w object)
    · exact (calm_setQueue w object s _).trans (calm_serviceFront site w object)

theorem calm_enqueue (t : Nat) : Calm s (s.enqueue w t object) := by
  unfold State.enqueue
  dsimp only
  split
  · exact .refl s
  · exact calm_setQueue w object s _

theorem calm_acquire (t : Nat) (p : Parked ι) : Calm s (s.acquire site e w t p object).2 := by
  unfold State.acquire
  split
  · have hentered : Calm s (s.enqueue w t object) := calm_enqueue w object t
    dsimp only
    split
    · exact hentered
    split
    · exact hentered.trans (calm_setParked w _ t _)
    split
    · exact hentered
    · exact hentered.trans ((calm_setParked w _ t _).trans (.of_workers rfl))
  · split
    · exact .refl s
    · exact (calm_setParked w s t _).trans (.of_workers rfl)

theorem calm_adoptForTake : Calm s (s.adoptForTake site e w object).2 := by
  unfold State.adoptForTake
  split
  · exact .refl s
  next generation _ =>
  have hadmitted := calm_admitDeed site (e := e) (s := s) w object ⟨false, w, none, generation⟩
  split
  · next heq _ =>
    rw [heq] at hadmitted
    exact hadmitted
  · next heq _ =>
    rw [heq] at hadmitted
    exact hadmitted.trans (calm_update w rfl (fun _ _ h => h) rfl)
  · next heq =>
    rw [heq] at hadmitted
    exact hadmitted

theorem calm_queueTake (a : Ask ι) : Calm s (s.queueTake site e a) := by
  unfold State.queueTake
  dsimp only
  split
  · exact (calm_setQueue a.dest a.object s _).trans
      ((calm_serviceFront site a.dest a.object).trans (calm_setReady _ _ _))
  · exact calm_setQueue a.dest a.object s _

theorem calm_onTake (a : Ask ι) : Calm s (s.onTake site e a) := by
  unfold State.onTake
  split
  · exact calm_queueTake site a
  split
  · exact .of_workers rfl
  have hadopt := calm_adoptForTake site (e := e) (s := s) a.dest a.object
  split
  · next heq =>
    rw [heq] at hadopt
    exact hadopt.trans (calm_queueTake site a)
  · next heq =>
    rw [heq] at hadopt
    exact hadopt.trans (.of_workers rfl)

theorem calm_onTaken (t : Nat) (result : TakenResult) :
    Calm s (s.onTaken site e w t object result) := by
  unfold State.onTaken
  split
  · exact .refl s
  next p _ =>
  have hmarked := calm_setParked w s t (some { p with taking := false })
  dsimp only
  split
  · exact hmarked.trans (calm_setReady w _ _)
  · exact hmarked.trans (calm_failAndPump site w t)
  next tm =>
  have hadmitted : Calm (s.setParked w t (some { p with taking := false }))
      (if ((((s.setParked w t (some { p with taking := false })).workers w).memory.owned
          object).isSome) = true then (true, s.setParked w t (some { p with taking := false }))
        else (s.setParked w t (some { p with taking := false })).admitDeed site e w object
          tm).2 := by
    split
    · exact .refl _
    · exact calm_admitDeed site w object tm
  split
  · next heq =>
    rw [heq] at hadmitted
    exact hmarked.trans (hadmitted.trans (calm_failAndPump site w t))
  · next r heq =>
    rw [heq] at hadmitted
    refine hmarked.trans (hadmitted.trans (Calm.trans ?_ (calm_setReady w _ _)))
    split
    · exact calm_setQueue w object r _
    · exact .refl r

theorem calm_activate (f : Fetch ι) (ok : Bool) : Calm s (s.activate site e f ok) := by
  unfold State.activate
  dsimp only
  split
  · refine Calm.trans ?_ (calm_setReady _ _ _)
    split
    · refine calm_update _ rfl (fun o _ hlive => ?_) rfl
      dsimp only
      rw [Function.update_apply]
      split
      · rfl
      · exact hlive
    · exact .refl s
  · exact calm_failAndPump site _ _

theorem calm_onActivated (f : Fetch ι) (ok : Bool) : Calm s (s.onActivated site e f ok) := by
  unfold State.onActivated
  split
  · exact calm_activate site f ok
  · exact (calm_setParked _ s _ _).trans (calm_activate site f ok)

theorem calm_submit (participants : Participants ι) (readOnly : Bool) :
    Calm s (s.submit w participants readOnly) := by
  have hparked := calm_setParked w s (s.workers w).nextTxn (some { participants, readOnly })
  unfold State.submit
  refine hparked.trans (Calm.trans ?_ (calm_setReady w _ _))
  exact calm_update w rfl (fun _ _ h => h) rfl

theorem calm_shed : Calm s (s.shed w) := by
  refine calm_update w rfl (fun o ho hlive => ?_) rfl
  have hunshipped : (s.workers w).boats.unshipped o = true := by
    rw [Boats.unshipped, AList.lookup_isSome.mpr ho]
    rfl
  simp [hlive, hunshipped]

theorem calm_settle : Calm s (s.settle site e w object).2 := by
  unfold State.settle
  split
  · exact calm_serviceFront site w object
  · split
    · exact .refl s
    · exact calm_maybeReturnHome site w object

theorem calm_finishClosing : Calm s (s.finishClosing w) := by
  unfold State.finishClosing
  dsimp only
  split
  · exact calm_update w rfl (fun _ _ h => h) rfl
  · exact .refl s

theorem calm_knock (s : State ι) (i : Nat) (k : TakeTask ι) (attempt owner : Nat) :
    Calm s (s.knock i k attempt owner) := by
  unfold State.knock
  split
  · exact .of_workers rfl
  · exact .of_workers rfl

theorem calm_taskStep (s : State ι) (i : Nat) (k : TakeTask ι) : Calm s (s.taskStep e i k) := by
  unfold State.taskStep
  split
  · exact .refl s
  · split
    · exact .of_workers rfl
    split
    · exact calm_knock ..
    split
    · exact calm_knock ..
    split
    · split
      · exact .of_workers rfl
      split <;> exact calm_knock ..
    · split
      · exact .of_workers rfl
      split <;> exact calm_knock ..
    · exact calm_knock ..
  · split
    · exact .refl s
    · exact .of_workers rfl
    · exact .of_workers rfl
    · exact .of_workers rfl

theorem calm_loseAnswer (s : State ι) (i : Nat) (k : TakeTask ι) : Calm s (s.loseAnswer i k) := by
  unfold State.loseAnswer
  split
  · exact .of_workers rfl
  · exact .refl s

end Parts

/-- The worker takes messages. -/
def Listens (s : State ι) (w : Nat) : Prop :=
  (s.workers w).ready = none ∧ (s.workers w).done = false ∧ (s.workers w).panicked = false

/-- The state in which a step of a worker calls `maybe_launch`: once a transaction ran, once a boat
landed or sank, or when the worker is to close. -/
inductive Launches (site : Site ι) (s : State ι) : Move ι × Env ι → Nat → State ι → Prop
  | ran {e : Env ι} {w t : Nat} {p : Parked ι} {ready : List Nat}
      (hready : (s.workers w).ready = some ready) (hup : (s.workers w).panicked = false)
      (hquiet : (s.workers w).needsService = []) (htop : ready.getLast? = some t)
      (hp : (s.workers w).parked t = some p) (hf : p.frontier = none) :
      Launches site s (.pump w, e) w (s.execute site e w t p).2
  | arrived {e : Env ι} {w : Nat} {ok : Bool} {unpromoted objects : List ι} {rebased : Option ι}
      (hlistens : Listens s w) (hreports : s.reports w ok unpromoted rebased = true)
      (hinflight : (s.workers w).boats.inflight = some objects) :
      Launches site s (.shipDone w ok unpromoted rebased, e) w
        (s.arrive e w ok unpromoted rebased objects)
  | closing {e : Env ι} {w : Nat} (hlistens : Listens s w) :
      Launches site s (.shutdown w, e) w (s.update w { s.workers w with closing := true })

/-- What a step comes to, as far as boats go: nothing, a launch, or a new start. -/
inductive Course (site : Site ι) (s : State ι) : Move ι × Env ι → State ι → Prop
  | calm {m : Move ι × Env ι} {s' : State ι} (h : Calm s s') : Course site s m s'
  | launch {m : Move ι × Env ι} {w : Nat} {before s' : State ι}
      (hlaunches : Launches site s m w before)
      (h : Calm (before.maybeLaunch site m.2 w) s') : Course site s m s'
  | boot {e : Env ι} {w : Nat} {memory : Checkpoint ι} :
      Course site s (.boot w memory, e) (s.boot w memory)

theorem Course.whenIdle {m : Move ι × Env ι} {w : Nat} {next : State ι}
    (h : Listens s w → Course site s m next) : Course site s m (s.whenIdle w next) := by
  unfold State.whenIdle
  split
  · next hidle =>
    split
    · exact .calm (.refl s)
    · next hup =>
      rw [Bool.or_eq_true, not_or, Bool.not_eq_true, Bool.not_eq_true] at hup
      exact h ⟨hidle, hup⟩
  · exact .calm (.refl s)

theorem course_pump (s : State ι) (w : Nat) : Course site s (.pump w, e) (s.pump site e w) := by
  unfold State.pump
  dsimp only
  split
  · exact .calm (.refl s)
  next ready hready =>
  split
  · exact .calm (.refl s)
  next hup =>
  split
  · next hquiet =>
    split
    · exact .calm (calm_setReady w s _)
    next t htop =>
    unfold State.advance
    split
    · exact .calm (calm_setReady w s _)
    next p hp =>
    split
    · next hf =>
      exact .launch (.ran hready (by simpa using hup) (List.isEmpty_iff.mp hquiet) htop hp hf)
        (calm_setReady w _ _)
    · exact .calm ((calm_acquire site w _ t p).trans (calm_setReady w _ _))
  · refine .calm (Calm.trans (Calm.trans ?_ (calm_gather
      (fun o _ => calm_serviceFront site w o) _ _)) (calm_setReady w _ _))
    exact calm_update w rfl (fun _ _ h => h) rfl

theorem course_onShipDone {w : Nat} {ok : Bool} {unpromoted : List ι} {rebased : Option ι}
    (hlistens : Listens s w) (hreports : s.reports w ok unpromoted rebased = true) :
    Course site s (.shipDone w ok unpromoted rebased, e)
      (s.onShipDone site e w ok unpromoted rebased) := by
  unfold State.onShipDone
  split
  · exact .calm (.refl s)
  next objects hinflight =>
  refine .launch (.arrived hlistens hreports hinflight) ?_
  dsimp only
  split
  · exact .refl _
  · exact (calm_gather (fun o _ => calm_settle site w o) _ _).trans
      ((calm_finishClosing w).trans (calm_setReady w _ _))

theorem course_shutdown {w : Nat} (hlistens : Listens s w) :
    Course site s (.shutdown w, e) (s.shutdown site e w) := by
  refine .launch (.closing hlistens) ?_
  unfold State.shutdown
  dsimp only
  split
  · exact .refl _
  · exact calm_finishClosing w

theorem course_step (s : State ι) (m : Move ι × Env ι) : Course site s m (s.step site m) := by
  obtain ⟨m, e⟩ := m
  cases m with
  | submit w participants readOnly =>
    exact .whenIdle fun _ => .calm (calm_submit w participants readOnly)
  | take i =>
    unfold State.step
    dsimp only
    split
    · exact .calm (.refl s)
    · exact .whenIdle fun _ => .calm ((calm_onTake site _).from_workers rfl)
  | adopt i =>
    unfold State.step
    dsimp only
    split
    · exact .calm (.refl s)
    · exact .whenIdle fun _ => .calm ((calm_admitDeed site _ _ _).from_workers rfl)
  | taken i =>
    unfold State.step
    dsimp only
    split
    · exact .whenIdle fun _ => .calm ((calm_onTaken site _ _ _ _).from_workers rfl)
    · exact .calm (.refl s)
  | activated i ok =>
    unfold State.step
    dsimp only
    split
    · exact .calm (.refl s)
    · exact .whenIdle fun _ => .calm ((calm_onActivated site _ ok).from_workers rfl)
  | shipDone w ok unpromoted rebased =>
    unfold State.step
    dsimp only
    split
    · next hreports => exact .whenIdle fun hlistens => course_onShipDone hlistens hreports
    · exact .calm (.refl s)
  | shutdown w => exact .whenIdle fun hlistens => course_shutdown hlistens
  | shed w => exact .whenIdle fun _ => .calm (calm_shed w)
  | recheckPolls w object => exact .whenIdle fun _ => .calm (calm_refreshIfStale w object)
  | pump w => exact course_pump s w
  | task i =>
    unfold State.step
    dsimp only
    split
    · exact .calm (.refl s)
    · exact .calm (calm_taskStep s i _)
  | loseAnswer i =>
    unfold State.step
    dsimp only
    split
    · exact .calm (.refl s)
    · exact .calm (calm_loseAnswer s i _)
  | boot w memory => exact .boot

end Fafo.Acquire
