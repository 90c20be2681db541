import Fafo.Launching
import Fafo.Library.Runs

/-! The books of the boats are right, what is dirty is live, and what is pending is under way. -/
namespace Fafo.Acquire

open Boats (Goes Voyage)

variable {ι : Type} [LinearOrder ι] {site : Site ι} {e : Env ι} {s s' : State ι} {w : Nat}

/-- All that a transaction does to the boats is to be applied. -/
theorem execute_course (s : State ι) (w t : Nat) (p : Parked ι) : ∃ ready, Calm s ready ∧
    Calm (ready.apply e w p) (s.execute site e w t p).2 := by
  have hrefreshes : ∀ (objects : List ι) (s : State ι),
      Calm s (objects.foldl (fun s o => s.refreshIfStale e w o) s) := by
    intro objects
    induction objects with
    | nil => exact fun s => .refl s
    | cons o objects ih => exact fun s => (calm_refreshIfStale w o).trans (ih _)
  unfold State.execute State.perform
  refine ⟨_, ?_, calm_gather (fun o _ => calm_pop site w o) _ _⟩
  split
  · refine Calm.trans ?_ (hrefreshes _ _)
    exact (calm_setParked w s t none).trans (calm_update w rfl (fun _ _ h => h) rfl)
  · exact (calm_setParked w s t none).trans (calm_update w rfl (fun _ _ h => h) rfl)

theorem update_self (s : State ι) (worker : Worker ι) : (s.update w worker).workers w = worker :=
  Function.update_self ..

theorem update_ne (s : State ι) (worker : Worker ι) {v : Nat} (hv : v ≠ w) :
    (s.update w worker).workers v = s.workers v := Function.update_of_ne hv ..

theorem boot_self (s : State ι) (memory : Checkpoint ι) :
    (s.boot w memory).workers w = { memory } := Function.update_self ..

theorem boot_ne (s : State ι) (memory : Checkpoint ι) {v : Nat} (hv : v ≠ w) :
    (s.boot w memory).workers v = s.workers v := Function.update_of_ne hv ..

/-- The other workers are as they were. -/
def Alone (w : Nat) (s s' : State ι) : Prop := ∀ v, v ≠ w → s'.workers v = s.workers v

theorem Alone.trans {s'' : State ι} (h : Alone w s s') (h' : Alone w s' s'') : Alone w s s'' :=
  fun v hv => (h' v hv).trans (h v hv)

theorem alone_update (s : State ι) (worker : Worker ι) : Alone w s (s.update w worker) :=
  fun _ hv => update_ne s worker hv

theorem alone_apply (p : Parked ι) : Alone w s (s.apply e w p) := by
  unfold State.apply
  dsimp only
  split
  · exact fun _ _ => rfl
  split
  · exact fun _ _ => rfl
  · split
    · exact fun _ _ => rfl
    · exact alone_update s _
  · split
    · exact fun _ _ => rfl
    · exact alone_update s _

theorem alone_arrive (ok : Bool) (unpromoted objects : List ι) (rebased : Option ι) :
    Alone w s (s.arrive e w ok unpromoted rebased objects) := by
  have hreconcile : ∀ s : State ι, Alone w s (s.reconcile e w rebased) := by
    intro s
    unfold State.reconcile
    split
    · unfold State.relinquish
      dsimp only
      split
      · split
        · exact alone_update s _
        · exact fun _ _ => rfl
      · split
        · exact alone_update s _
        · exact fun _ _ => rfl
      · exact fun _ _ => rfl
    · exact fun _ _ => rfl
  have hlanded : ∀ s : State ι, Alone w s (s.landed e w ok unpromoted objects) := by
    intro s
    unfold State.landed
    dsimp only
    split
    · split
      · exact fun _ _ => rfl
      · exact alone_update s _
    · exact alone_update s _
  exact (alone_update s _).trans ((hreconcile _).trans (hlanded _))

theorem alone_maybeLaunch : Alone w s (s.maybeLaunch site e w) := by
  have hrevert : Alone w s (s.revertOrphaned e w) := by
    unfold State.revertOrphaned
    dsimp only
    split
    · exact fun _ _ => rfl
    · exact alone_update s _
  refine hrevert.trans ?_
  unfold State.maybeLaunch State.launch
  dsimp only
  split
  · exact fun _ _ => rfl
  split
  · split
    · exact alone_update _ _
    · exact alone_update _ _
  · exact alone_update _ _

/-- What holds of each worker, knows of it no more than a calm step leaves alone, and survives an
apply or an arrival, holds where a launch begins. -/
theorem Launches.induction {P : Worker ι → Prop} {m : Move ι × Env ι} {before : State ι}
    (hcalm : ∀ s s' : State ι, Calm s s' → (∀ v, P (s.workers v)) → ∀ v, P (s'.workers v))
    (happly : ∀ (s : State ι) p, (∀ v, P (s.workers v)) → P ((s.apply m.2 w p).workers w))
    (harrive : ∀ ok unpromoted rebased objects, m.1 = .shipDone w ok unpromoted rebased →
      Listens s w → s.reports w ok unpromoted rebased = true →
      (s.workers w).boats.inflight = some objects → (∀ v, P (s.workers v)) →
      P ((s.arrive m.2 w ok unpromoted rebased objects).workers w))
    (hlaunches : Launches site s m w before) (hs : ∀ v, P (s.workers v)) :
    ∀ v, P (before.workers v) := by
  cases hlaunches with
  | @ran e w t p =>
    have hexecute : ∃ ready, Calm s ready ∧ Calm (ready.apply e w p) (s.execute site e w t p).2 :=
      execute_course s w t p
    obtain ⟨ready, hready, hrest⟩ := hexecute
    have hs := hcalm _ _ hready hs
    refine hcalm _ _ hrest fun v => ?_
    by_cases hv : v = w
    · subst hv
      exact happly ready p hs
    · rw [alone_apply p v hv]
      exact hs v
  | @arrived e w ok unpromoted objects rebased hlistens hreports hinflight =>
    intro v
    by_cases hv : v = w
    · subst hv
      exact harrive ok unpromoted rebased objects rfl hlistens hreports hinflight hs
    · rw [alone_arrive ok unpromoted objects rebased v hv]
      exact hs v
  | closing => exact hcalm _ _ (calm_update _ rfl (fun _ _ h => h) rfl) hs

def Booked (worker : Worker ι) : Prop := worker.boats.Booked

theorem booked_calm (h : Calm s s') (hs : ∀ v, Booked (s.workers v)) (v : Nat) :
    Booked (s'.workers v) := by
  rw [Booked, h.boats]
  exact hs v

theorem voyage_revertClosure (limit : Nat) (s : State ι) (w : Nat) (seed : List ι) :
    Voyage limit (s.workers w).boats ((s.revertClosure w seed).workers w).boats := by
  rw [State.revertClosure, update_self]
  exact (Goes.revert seed).voyage

theorem booked_revertClosure (hs : Booked (s.workers w)) (seed : List ι) :
    Booked ((s.revertClosure w seed).workers w) :=
  (voyage_revertClosure 0 s w seed).booked hs

theorem voyage_apply {limit : Nat} (p : Parked ι) :
    Voyage limit (s.workers w).boats ((s.apply e w p).workers w).boats := by
  unfold State.apply
  dsimp only
  split
  · exact .refl
  split
  · exact .refl
  · split
    · exact .refl
    · exact voyage_revertClosure _ s w _
  · split
    · exact .refl
    · rw [update_self]
      exact (Goes.apply _ _).voyage

/-- A boat landed, or it sank; only its own objects are unpromoted or rebased. -/
theorem reports_cases {ok : Bool} {unpromoted objects : List ι} {rebased : Option ι}
    (h : s.reports w ok unpromoted rebased = true)
    (hinflight : (s.workers w).boats.inflight = some objects) :
    (ok = true ∧ rebased = none ∧ unpromoted ⊆ objects) ∨
      (ok = false ∧ ∀ o, rebased = some o → o ∈ objects) := by
  unfold State.reports at h
  rw [hinflight] at h
  cases ok with
  | true =>
    obtain ⟨hunpromoted, hrebased⟩ := (Bool.and_eq_true _ _).mp h
    refine .inl ⟨rfl, by simpa using hrebased, fun o ho => ?_⟩
    simpa using List.all_eq_true.mp hunpromoted o ho
  | false =>
    obtain ⟨_, hrebased⟩ := (Bool.and_eq_true _ _).mp h
    refine .inr ⟨rfl, fun o ho => ?_⟩
    rw [ho] at hrebased
    simpa using hrebased

/-- An object that is given up is cleaned. -/
theorem relinquish_worker (s : State ι) (object : ι) :
    s.relinquish e w object = s ∨
      ((s.relinquish e w object).workers w).boats = (s.workers w).boats.clean object ∧
      ((s.relinquish e w object).workers w).live =
        Function.update (s.workers w).live object false ∧
      ((s.relinquish e w object).workers w).panicked = (s.workers w).panicked := by
  have hgiven : ∀ (g : Prop) [Decidable g] (worker : Worker ι),
      worker.boats = (s.workers w).boats.clean object →
      worker.live = Function.update (s.workers w).live object false →
      worker.panicked = (s.workers w).panicked →
      (if g then s.update w worker else s) = s ∨
        ((if g then s.update w worker else s).workers w).boats =
          (s.workers w).boats.clean object ∧
        ((if g then s.update w worker else s).workers w).live =
          Function.update (s.workers w).live object false ∧
        ((if g then s.update w worker else s).workers w).panicked = (s.workers w).panicked := by
    intro g _ worker hboats hlive hpanicked
    split
    · rw [update_self]
      exact .inr ⟨hboats, hlive, hpanicked⟩
    · exact .inl rfl
  unfold State.relinquish
  dsimp only
  split
  · exact hgiven _ _ rfl rfl rfl
  · exact hgiven _ _ rfl rfl rfl
  · exact .inl rfl

theorem voyage_landed {limit : Nat} (unpromoted objects : List ι) :
    Voyage limit (s.workers w).boats ((s.landed e w true unpromoted objects).workers w).boats := by
  unfold State.landed
  dsimp only
  rw [if_pos rfl]
  split
  · exact .refl
  · rw [update_self]
    exact (Goes.apply _ _).voyage

/-- An object that was given up before is among those that are reverted. -/
theorem voyage_sank (limit : Nat) {objects : List ι} {rebased : Option ι}
    (hrebased : ∀ o, rebased = some o → o ∈ objects) :
    Voyage limit (s.workers w).boats
      (((s.reconcile e w rebased).landed e w false [] objects).workers w).boats := by
  have hsank : ∀ r : State ι, r.landed e w false [] objects = r.revertClosure w objects :=
    fun _ => rfl
  rw [hsank]
  cases rebased with
  | none => exact voyage_revertClosure _ s w objects
  | some object =>
    rcases relinquish_worker (e := e) (w := w) s object with hsame | ⟨hboats, _, _⟩
    · have : s.reconcile e w (some object) = s := hsame
      rw [this]
      exact voyage_revertClosure _ s w objects
    · have hboats : ((s.reconcile e w (some object)).workers w).boats =
          (s.workers w).boats.clean object := hboats
      rw [State.revertClosure, update_self, hboats]
      exact (Goes.yieldTo object objects (hrebased object rfl)).voyage

theorem voyage_arrive {limit : Nat} {ok : Bool} {unpromoted objects : List ι} {rebased : Option ι}
    (hreports : s.reports w ok unpromoted rebased = true)
    (hinflight : (s.workers w).boats.inflight = some objects) :
    Voyage limit (s.workers w).boats
      ((s.arrive e w ok unpromoted rebased objects).workers w).boats := by
  have hempty : Voyage limit (s.workers w).boats ((s.update w { s.workers w with
      boats := { (s.workers w).boats with inflight := none } }).workers w).boats := by
    rw [update_self]
    exact (Goes.arrive objects hinflight).voyage
  rcases reports_cases hreports hinflight with ⟨rfl, rfl, _⟩ | ⟨rfl, hrebased⟩
  · exact hempty.trans (voyage_landed unpromoted objects)
  · exact hempty.trans (voyage_sank limit hrebased)

theorem voyage_maybeLaunch (s : State ι) (w : Nat) :
    Voyage site.maxBoatBytes (s.workers w).boats ((s.maybeLaunch site e w).workers w).boats := by
  have hreverted : Voyage site.maxBoatBytes (s.workers w).boats
      ((s.revertOrphaned e w).workers w).boats := by
    unfold State.revertOrphaned
    dsimp only
    split
    · exact .refl
    · exact voyage_revertClosure _ s w _
  refine hreverted.trans ?_
  unfold State.maybeLaunch State.launch
  dsimp only
  split
  · exact .refl
  next hidle =>
  have hnone : ((s.revertOrphaned e w).workers w).boats.inflight = none :=
    Boats.idle_of_not hidle
  split
  · split
    · rw [update_self]
      exact (Goes.leave hnone).voyage
    · rw [update_self]
  · rw [update_self]
    exact (Goes.strand hnone).voyage

theorem Launches.alone {m : Move ι × Env ι} {before : State ι} (h : Launches site s m w before) :
    ∀ v, v ≠ w → (before.workers v).boats = (s.workers v).boats ∧
      (before.workers v).panicked = (s.workers v).panicked := by
  intro v hv
  cases h with
  | @ran e w t p =>
    have hexecute : ∃ ready, Calm s ready ∧ Calm (ready.apply e w p) (s.execute site e w t p).2 :=
      execute_course s w t p
    obtain ⟨ready, hready, hrest⟩ := hexecute
    rw [hrest.boats, hrest.panicked, alone_apply p v hv]
    exact ⟨hready.boats v, hready.panicked v⟩
  | @arrived e w ok unpromoted objects rebased =>
    rw [alone_arrive ok unpromoted objects rebased v hv]
    exact ⟨rfl, rfl⟩
  | closing =>
    rw [update_ne _ _ hv]
    exact ⟨rfl, rfl⟩

/-- What the worker did before a launch begins; the others did nothing. -/
theorem Launches.voyage {m : Move ι × Env ι} {before : State ι}
    (h : Launches site s m w before) (v : Nat) :
    Voyage site.maxBoatBytes (s.workers v).boats (before.workers v).boats := by
  by_cases hv : v = w
  · subst hv
    cases h with
    | @ran e _ t p =>
      obtain ⟨ready, hready, hrest⟩ := execute_course s v t p
      rw [hrest.boats, ← hready.boats]
      exact voyage_apply p
    | arrived hlistens hreports hinflight => exact voyage_arrive hreports hinflight
    | closing => rw [update_self]
  · rw [(h.alone v hv).1]

/-- Whatever happens, no worker does anything else to its boats. -/
theorem voyage_step (s : State ι) (m : Move ι × Env ι) (v : Nat) :
    Voyage site.maxBoatBytes (s.workers v).boats ((s.step site m).workers v).boats := by
  have hcourse : Course site s m (s.step site m) := course_step s m
  generalize s.step site m = s' at hcourse ⊢
  cases hcourse with
  | calm h => rw [h.boats]
  | @launch _ w before _ hlaunches h =>
    rw [h.boats]
    refine (hlaunches.voyage v).trans ?_
    by_cases hv : v = w
    · subst hv
      exact voyage_maybeLaunch before v
    · rw [alone_maybeLaunch v hv]
  | @boot e w memory =>
    by_cases hv : v = w
    · subst hv
      rw [boot_self]
      exact Goes.boot.voyage
    · rw [boot_ne s memory hv]

theorem booked_step (s : State ι) (m : Move ι × Env ι) (hs : ∀ v, Booked (s.workers v)) (v : Nat) :
    Booked ((s.step site m).workers v) := (voyage_step s m v).booked (hs v)

/-- Whatever happens to a worker: `dirty_bytes` is the sum of what is dirty, just the participants
of what is pending are dirty, and no subtraction ever saturates. -/
theorem boats_booked (site : Site ι) (moves : List (Move ι × Env ι)) :
    Runs.Throughout (State.step site) (fun s => ∀ w, (s.workers w).boats.Booked) {} moves := by
  have hstart : ∀ w, Booked (({} : State ι).workers w) := fun _ => Boats.booked_empty
  exact Runs.invariant booked_step (fun _ hs => hs) hstart moves

/-- The books are in order, what is dirty is live, and the worker has not panicked. -/
structure Lively (worker : Worker ι) : Prop where
  booked : worker.boats.Booked
  live : ∀ o ∈ worker.boats.dirty, worker.live o = true
  up : worker.panicked = false

theorem lively_calm (h : Calm s s') (hs : ∀ v, Lively (s.workers v)) (v : Nat) :
    Lively (s'.workers v) := by
  refine ⟨booked_calm h (fun v => (hs v).booked) v, fun o ho => ?_, ?_⟩
  · rw [h.boats] at ho
    exact h.live v o ho ((hs v).live o ho)
  · rw [h.panicked]
    exact (hs v).up

/-- What is reverted is neither dirty nor live any more, all else is as it was. -/
theorem lively_revertClosure {seed : List ι} (hbooked : Booked ((s.revertClosure w seed).workers w))
    (hlive : ∀ o ∉ (s.workers w).boats.closure seed, o ∈ (s.workers w).boats.dirty →
      (s.workers w).live o = true) (hup : (s.workers w).panicked = false) :
    Lively ((s.revertClosure w seed).workers w) := by
  refine ⟨hbooked, ?_, ?_⟩
  · rw [State.revertClosure, update_self]
    intro o ho
    obtain ⟨hout, hdirty⟩ := (Boats.mem_cleanAll o).mp ho
    simp [hlive o hout hdirty, hout]
  · rw [State.revertClosure, update_self]
    exact hup

theorem Lively.revertClosure (hs : Lively (s.workers w)) (seed : List ι) :
    Lively ((s.revertClosure w seed).workers w) :=
  lively_revertClosure (booked_revertClosure hs.booked seed) (fun o _ ho => hs.live o ho) hs.up

/-- Only live objects are written. -/
theorem Lively.apply (hs : Lively (s.workers w)) (p : Parked ι) :
    Lively ((s.apply e w p).workers w) := by
  unfold State.apply
  dsimp only
  split
  · exact hs
  next hall =>
  split
  · exact hs
  · split
    · exact hs
    · exact hs.revertClosure _
  · split
    · exact hs
    · next changed _ hwrites =>
      rw [update_self]
      refine ⟨hs.booked.applied _ _, fun o ho => ?_, hs.up⟩
      rcases (Boats.mem_applied _ _ o).mp ho with hmem | ho
      · have hlive : ∀ x ∈ p.participants.val, (s.workers w).live x = true := by
          simpa using hall
        exact hlive o (List.mem_of_mem_filter hmem)
      · exact hs.live o ho

/-- A worker's boat that lands finds live all of its objects that were not promoted. -/
def PromotedOrLive (s : State ι) (m : Move ι × Env ι) : Prop :=
  match m.1 with
  | .shipDone w ok unpromoted rebased => Listens s w →
      s.reports w ok unpromoted rebased = true → ∀ o ∈ unpromoted, (s.workers w).live o = true
  | _ => True

theorem Lively.landed (hs : Lively (s.workers w)) {unpromoted : List ι} (objects : List ι)
    (hlive : ∀ o ∈ unpromoted, (s.workers w).live o = true) :
    Lively ((s.landed e w true unpromoted objects).workers w) := by
  unfold State.landed
  dsimp only
  rw [if_pos rfl]
  split
  · exact hs
  · rw [update_self]
    refine ⟨hs.booked.applied _ _, fun o ho => ?_, hs.up⟩
    rcases (Boats.mem_applied _ _ o).mp ho with ho | ho
    · exact hlive o ho
    · exact hs.live o ho

theorem Lively.sank (hs : Lively (s.workers w)) {objects : List ι} {rebased : Option ι}
    (hrebased : ∀ o, rebased = some o → o ∈ objects) :
    Lively (((s.reconcile e w rebased).landed e w false [] objects).workers w) := by
  have hbooked := (voyage_sank (e := e) 0 hrebased).booked hs.booked
  cases rebased with
  | none => exact hs.revertClosure objects
  | some object =>
    rcases relinquish_worker (e := e) (w := w) s object with hsame | ⟨hboats, hlive, hup⟩
    · have hsame : s.reconcile e w (some object) = s := hsame
      rw [hsame]
      exact hs.revertClosure objects
    · refine lively_revertClosure hbooked (fun o ho hdirty => ?_) (hup.trans hs.up)
      have hne : o ≠ object := by
        rintro rfl
        exact ho (Groups.subset_closure _ objects (hrebased o rfl))
      have hdirty : o ∈ ((s.relinquish e w object).workers w).boats.dirty := hdirty
      have hlive' : ((s.relinquish e w object).workers w).live o = (s.workers w).live o := by
        rw [hlive, Function.update_of_ne hne]
      rw [hboats, Boats.clean_dirty, AList.mem_erase] at hdirty
      exact hlive'.trans (hs.live o hdirty.2)

theorem Lively.arrive {ok : Bool} {unpromoted objects : List ι} {rebased : Option ι}
    (hs : Lively (s.workers w)) (hreports : s.reports w ok unpromoted rebased = true)
    (hinflight : (s.workers w).boats.inflight = some objects)
    (hlive : ∀ o ∈ unpromoted, (s.workers w).live o = true) :
    Lively ((s.arrive e w ok unpromoted rebased objects).workers w) := by
  have hempty : Lively ((s.update w { s.workers w with
      boats := { (s.workers w).boats with inflight := none } }).workers w) := by
    rw [update_self]
    exact ⟨⟨⟨hs.booked.total, hs.booked.exact⟩, hs.booked.keys⟩, hs.live, hs.up⟩
  rcases reports_cases hreports hinflight with ⟨rfl, rfl, _⟩ | ⟨rfl, hrebased⟩
  · refine hempty.landed objects fun o ho => ?_
    rw [update_self]
    exact hlive o ho
  · exact hempty.sank hrebased

theorem Lively.maybeLaunch (hs : Lively (s.workers w)) :
    Lively ((s.maybeLaunch site e w).workers w) := by
  have hreverted : Lively ((s.revertOrphaned e w).workers w) := by
    unfold State.revertOrphaned
    dsimp only
    split
    · exact hs
    · exact hs.revertClosure _
  have hbooked : Booked ((s.maybeLaunch site e w).workers w) :=
    (voyage_maybeLaunch s w).booked hs.booked
  unfold State.maybeLaunch State.launch at hbooked ⊢
  dsimp only at hbooked ⊢
  generalize s.revertOrphaned e w = r at hreverted hbooked ⊢
  have hashore : ∀ o ∈ ((r.workers w).boats.ashore ((r.workers w).boats.cut
      site.maxBoatBytes)).dirty, o ∉ ((r.workers w).boats.cut site.maxBoatBytes).objects ∧
      (r.workers w).live o = true := by
    intro o ho
    obtain ⟨hout, hdirty⟩ := (Boats.mem_cleanAll o).mp ho
    exact ⟨hout, hreverted.live o hdirty⟩
  split
  · exact hreverted
  next hlaunch =>
  rw [if_neg hlaunch] at hbooked
  split
  · next hreadable =>
    rw [if_pos hreadable] at hbooked
    split
    · next hall =>
      rw [if_pos hall, Booked, update_self] at hbooked
      rw [update_self]
      exact ⟨hbooked, fun o ho => (hashore o ho).2, hreverted.up⟩
    · next hdead =>
      -- what the boat takes is dirty, and so live
      refine absurd (List.all_eq_true.mpr fun o ho => ?_) hdead
      exact hreverted.live o (hreverted.booked.mem_cut ho)
  · next hunreadable =>
    rw [if_neg hunreadable, Booked, update_self] at hbooked
    rw [update_self]
    refine ⟨hbooked, fun o ho => ?_, hreverted.up⟩
    obtain ⟨hout, hlive⟩ := hashore o ho
    simp [hlive, hout]

theorem lively_step (s : State ι) (m : Move ι × Env ι) (hs : ∀ v, Lively (s.workers v))
    (hpromoted : PromotedOrLive s m) (v : Nat) : Lively ((s.step site m).workers v) := by
  have hcourse : Course site s m (s.step site m) := course_step s m
  generalize s.step site m = s' at hcourse ⊢
  cases hcourse with
  | calm h => exact lively_calm h hs v
  | @launch _ w before _ hlaunches h =>
    have hbefore : ∀ v, Lively (before.workers v) := by
      refine hlaunches.induction (fun _ _ hcalm hs => lively_calm hcalm hs)
        (fun _ p hs => (hs w).apply p) ?_ hs
      intro ok unpromoted rebased objects hm hlistens hreports hinflight hs
      rw [PromotedOrLive, hm] at hpromoted
      exact (hs w).arrive hreports hinflight (hpromoted hlistens hreports)
    refine lively_calm h (fun v => ?_) v
    by_cases hv : v = w
    · subst hv
      exact (hbefore v).maybeLaunch
    · rw [alone_maybeLaunch v hv]
      exact hbefore v
  | @boot e w memory =>
    by_cases hv : v = w
    · subst hv
      rw [boot_self]
      exact ⟨Boats.booked_empty, fun o ho => absurd ho (AList.notMem_empty o), rfl⟩
    · rw [boot_ne s memory hv]
      exact hs v

/-- What is dirty is live, and no launch panics, as long as no boat lands with an object that was
not promoted and is not live any more. -/
theorem dirty_live (site : Site ι) (moves : List (Move ι × Env ι))
    (h : Runs.Guarded (State.step site) PromotedOrLive {} moves) :
    Runs.Throughout (State.step site) (fun s => ∀ w, (s.workers w).panicked = false ∧
      ∀ o ∈ (s.workers w).boats.dirty, (s.workers w).live o = true) {} moves := by
  have hstart : ∀ w, Lively (({} : State ι).workers w) :=
    fun _ => ⟨Boats.booked_empty, fun o ho => absurd ho (AList.notMem_empty o), rfl⟩
  exact h.throughout lively_step (fun _ hs w => ⟨(hs w).up, (hs w).live⟩) hstart

section Lone

/-- Every object has its home at worker 0. -/
def lone : Site Nat :=
  { defaultWorker := fun _ => 0, hysteresis := 0, logPrimary := false, maxBoatBytes := 15 }

def commits : Env Nat := { outcome := .ok fun _ => true, bytes := fun _ => 10 }

def sole (o : Nat) : Participants Nat := ⟨[o], List.pairwise_singleton _ _⟩

/-- A transaction that has to activate one object, at most. -/
def driven (participants : Participants Nat) (e : Env Nat) : List (Move Nat × Env Nat) :=
  [(.submit 0 participants false, e)] ++ List.replicate 4 (.pump 0, e) ++
    [(.activated 0 true, e)] ++ List.replicate 4 (.pump 0, e)

/-- A boat lands, but its object is not promoted: it is repaired. -/
theorem dirty_live_repaired :
    Runs.Throughout (State.step lone) (fun s => ∀ w, (s.workers w).panicked = false ∧
      ∀ o ∈ (s.workers w).boats.dirty, (s.workers w).live o = true) {}
      (driven (sole 0) commits ++ [(.shipDone 0 true [0] none, commits)]) := by
  refine dirty_live lone _ ⟨trivial, trivial, trivial, trivial, trivial, trivial, trivial, trivial,
    trivial, trivial, fun _ _ o ho => ?_, trivial⟩
  rw [List.mem_singleton.mp ho]
  decide +kernel

/-- Object 0 is in flight when a transaction on objects 0 and 1 commits on the first but not on the
second, and is reverted. The boat lands, object 0 is not promoted, and is to be repaired. -/
def deadRepair : List (Move Nat × Env Nat) :=
  driven (sole 0) commits ++ driven ⟨[0, 1], by decide⟩ { outcome := .commitFailed 1 } ++
    [(.shipDone 0 true [0] none, commits)]

/-- The launch of the repair panics, with object 0 dirty but not live. -/
theorem dead_object_dirty :
    ¬ Runs.Throughout (State.step lone) (fun s => ∀ w, (s.workers w).panicked = false ∧
      ∀ o ∈ (s.workers w).boats.dirty, (s.workers w).live o = true) {} deadRepair := by
  have hpanicked : ((Runs.run (State.step lone) {} deadRepair).workers 0).panicked = true := by
    decide +kernel
  intro h
  exact absurd (h.last 0).1 (by rw [hpanicked]; exact nofun)

end Lone

/-- Nothing is pending without a boat in flight, unless the worker has panicked. -/
def UnderWay (worker : Worker ι) : Prop :=
  worker.panicked = false → worker.boats.pending ≠ [] → worker.boats.inflight.isSome = true

theorem underWay_calm (h : Calm s s') (hs : ∀ v, UnderWay (s.workers v)) (v : Nat) :
    UnderWay (s'.workers v) := by
  rw [UnderWay, h.panicked, h.boats]
  exact hs v

/-- Where the files of a boat cannot be read, nothing is left behind: no boat can leave anyway, or
all that is pending fits in this one. -/
def Unbroken (site : Site ι) (s : State ι) (m : Move ι × Env ι) : Prop :=
  ∀ w before, Launches site s m w before →
    let boats := ((before.revertOrphaned m.2 w).workers w).boats
    m.2.readable = true ∨ boats.inflight.isSome = true ∨ boats.Fits site.maxBoatBytes

/-- A launch puts what is pending under way. -/
theorem underWay_maybeLaunch (hs : Booked (s.workers w))
    (hunbroken : e.readable = true ∨
      (((s.revertOrphaned e w).workers w).boats.inflight.isSome = true ∨
        ((s.revertOrphaned e w).workers w).boats.Fits site.maxBoatBytes)) :
    UnderWay ((s.maybeLaunch site e w).workers w) := by
  have hreverted : Booked ((s.revertOrphaned e w).workers w) := by
    unfold State.revertOrphaned
    dsimp only
    split
    · exact hs
    · exact booked_revertClosure hs _
  unfold State.maybeLaunch State.launch
  dsimp only
  generalize s.revertOrphaned e w = r at hunbroken hreverted ⊢
  split
  · next hstop =>
    intro _ hpending
    rcases (Bool.or_eq_true _ _).mp hstop with hinflight | hempty
    · exact hinflight
    · exact absurd (List.isEmpty_iff.mp hempty) hpending
  next hlaunch =>
  split
  · split
    · rw [update_self]
      exact fun _ _ => rfl
    · rw [update_self]
      nofun
  · next hunreadable =>
    rw [update_self]
    intro _ hpending
    rcases hunbroken with hreadable | hinflight | hfits
    · exact absurd hreadable hunreadable
    · exact absurd (by rw [hinflight]; rfl) hlaunch
    · refine absurd ?_ hpending
      simp only [Boats.ashore_pending, hreverted.leftover_nil hfits]
      rfl

theorem underWay_step (s : State ι) (m : Move ι × Env ι)
    (hs : (∀ v, Booked (s.workers v)) ∧ ∀ v, UnderWay (s.workers v))
    (hunbroken : Unbroken site s m) :
    (∀ v, Booked ((s.step site m).workers v)) ∧ ∀ v, UnderWay ((s.step site m).workers v) := by
  refine ⟨booked_step s m hs.1, fun v => ?_⟩
  have hcourse : Course site s m (s.step site m) := course_step s m
  generalize s.step site m = s' at hcourse ⊢
  cases hcourse with
  | calm h => exact underWay_calm h hs.2 v
  | @launch _ w before _ hlaunches h =>
    refine underWay_calm h (fun v => ?_) v
    by_cases hv : v = w
    · subst hv
      have hbooked := (hlaunches.voyage v).booked (hs.1 v)
      exact underWay_maybeLaunch hbooked (hunbroken v before hlaunches)
    · obtain ⟨hboats, hpanicked⟩ := hlaunches.alone v hv
      rw [alone_maybeLaunch v hv, UnderWay, hboats, hpanicked]
      exact hs.2 v
  | @boot e w memory =>
    by_cases hv : v = w
    · subst hv
      rw [boot_self]
      exact fun _ hpending => absurd rfl hpending
    · rw [boot_ne s memory hv]
      exact hs.2 v

/-- No worker that has handled its messages leaves anything pending without a boat in flight. -/
def NoneStranded (s : State ι) : Prop :=
  ∀ w, (s.workers w).ready = none → (s.workers w).panicked = false →
    (s.workers w).boats.pending ≠ [] → (s.workers w).boats.inflight.isSome = true

/-- No pending transaction is left without a boat in flight, as long as no boat whose files cannot
be read leaves anyone behind. -/
theorem pending_underWay (site : Site ι) (moves : List (Move ι × Env ι))
    (h : Runs.Guarded (State.step site) (Unbroken site) {} moves) :
    Runs.Throughout (State.step site) NoneStranded {} moves := by
  have hstart : (∀ w, Booked (({} : State ι).workers w)) ∧
      ∀ w, UnderWay (({} : State ι).workers w) :=
    ⟨fun _ => Boats.booked_empty, fun _ _ hpending => absurd rfl hpending⟩
  exact h.throughout underWay_step (fun _ hs w _ => hs.2 w) hstart

/-- A worker is to close while its boat is in flight. -/
theorem pending_underWay_closing :
    Runs.Throughout (State.step lone) NoneStranded {}
      (driven (sole 0) commits ++ [(.shutdown 0, { commits with readable := false })]) := by
  have hreadable : ∀ s m, Unbroken lone s (m, commits) := fun _ _ _ _ _ => .inl rfl
  refine pending_underWay lone _ ⟨hreadable _ _, hreadable _ _, hreadable _ _, hreadable _ _,
    hreadable _ _, hreadable _ _, hreadable _ _, hreadable _ _, hreadable _ _, hreadable _ _, ?_,
    trivial⟩
  intro w before hlaunches
  cases hlaunches
  refine .inr (.inl ?_)
  decide +kernel

/-- While object 0 is in flight, objects 1 and 2 are written; together they do not fit in a boat.
Then object 0 has landed, and the file of object 1 cannot be read. -/
def unreadable : List (Move Nat × Env Nat) :=
  driven (sole 0) commits ++ driven (sole 1) commits ++ driven (sole 2) commits ++
    [(.shipDone 0 true [] none, { commits with readable := false })] ++
    List.replicate 3 (.pump 0, commits)

/-- Object 2 is pending with no boat in flight, and the worker idle. -/
theorem boat_stranded :
    ¬ Runs.Throughout (State.step lone) NoneStranded {} unreadable := by
  have hready : ((Runs.run (State.step lone) {} unreadable).workers 0).ready.isNone = true := by
    decide +kernel
  have hpanicked : ((Runs.run (State.step lone) {} unreadable).workers 0).panicked = false := by
    decide +kernel
  have hpending : ((Runs.run (State.step lone) {} unreadable).workers 0).boats.pending.length =
      1 := by decide +kernel
  have hnone : ((Runs.run (State.step lone) {} unreadable).workers 0).boats.inflight.isSome =
      false := by decide +kernel
  intro h
  have hinflight := h.last 0 (Option.isNone_iff_eq_none.mp hready) hpanicked fun hempty => by
    rw [hempty] at hpending
    cases hpending
  rw [hnone] at hinflight
  cases hinflight

end Fafo.Acquire
