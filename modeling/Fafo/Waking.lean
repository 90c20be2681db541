import Fafo.Awake
import Fafo.Exclusive

/-! Whoever fails, runs or is driven wakes those who stand behind. -/
namespace Fafo.Acquire

variable {ι : Type} [LinearOrder ι] {site : Site ι} {e : Env ι} {s s' : State ι} {w t : Nat}
  {object : ι} {R : List Nat} {U : ι → Prop}

/-- A queue that no parked transaction leaves is to be served again. -/
theorem Awake.trim (h : Awake s w R U) {queue : List Entry}
    (hkept : ∀ t p, (s.workers w).parked t = some p → .txn t ∈ (s.workers w).queues object →
      .txn t ∈ queue) :
    Awake (s.setQueue w object queue) w R fun o => U o ∨ o = object := by
  have hwider : Awake s w R fun o => (U o ∨ o = object) ∨ o = object :=
    h.mono (fun _ ht => ht) fun _ hu => .inl (.inl hu)
  have htrimmed : Awake (s.setQueue w object queue) w (R ++ []) fun o => U o ∨ o = object :=
    hwider.requeue (requeues_setQueue s queue) (fun _ _ _ => .inr (.inr rfl))
      (fun _ _ => .inr (.inr rfl)) fun t p hp hmem => .inr (hkept t p hp hmem)
  rwa [List.append_nil] at htrimmed

/-- Nobody stands in the queue any more. -/
theorem Awake.emptied (h : Awake s w R fun o => U o ∨ o = object)
    (hempty : (s.workers w).queues object = []) : Awake s w R U :=
  h.served fun o hu => hu.imp_right fun heq => by rw [heq, hempty]

theorem queues_setQueue_self (s : State ι) (queue : List Entry) :
    ((s.setQueue w object queue).workers w).queues object = queue := by
  rw [setQueue_queues, if_pos ⟨rfl, rfl⟩]

theorem Awake.leave (h : Awake s w R U) (hgone : (s.workers w).parked t = none) :
    Awake (s.leave site e w t object).2 w (R ++ (s.leave site e w t object).1) U := by
  have htrimmed : Awake (s.setQueue w object (((s.workers w).queues object).filter
      fun a => a ≠ .txn t)) w R fun o => U o ∨ o = object := by
    refine h.trim fun u p hp hmem => List.mem_filter.mpr ⟨hmem, ?_⟩
    rw [decide_eq_true_eq]
    rintro ⟨⟩
    rw [hgone] at hp
    cases hp
  unfold State.leave
  split
  · rw [List.append_nil]
    exact h
  dsimp only
  split
  · next hempty =>
    rw [List.append_nil]
    exact htrimmed.emptied ((queues_setQueue_self s _).trans (List.isEmpty_iff.mp hempty))
  · exact htrimmed.serviceFront

/-- What no longer is parked need not be driven. -/
theorem Awake.unpark (h : Awake s w R U) : Awake (s.setParked w t none) w R U where
  takes o taker resp hat := by
    rw [setParked_queues] at hat
    rw [State.setParked, update_self]
    exact h.takes o taker resp hat
  asked u p hp := by
    rw [setParked_parked] at hp
    split at hp
    · cases hp
    · exact (h.asked u p hp).of_same rfl rfl
  rests u p hp := by
    rw [setParked_parked] at hp
    split at hp
    · cases hp
    · exact (h.rests u p hp).imp_right fun hrests =>
        hrests.of_queues (setParked_queues ..) fun _ hu => hu

theorem parked_leave : ((s.leave site e w t object).2.workers w).parked = (s.workers w).parked := by
  unfold State.leave
  split
  · rfl
  dsimp only
  split
  · exact setQueue_parked ..
  · rw [(trims_serviceFront site w object).parked]
    exact setQueue_parked ..

/-- A transaction that fails wakes who stood behind it. -/
theorem Awake.failTxn (h : Awake s w R U) :
    Awake (s.failTxn site e w t).2 w (R ++ (s.failTxn site e w t).1) U ∧
      ((s.failTxn site e w t).2.workers w).parked t = none := by
  unfold State.failTxn
  split
  · next hgone =>
    rw [List.append_nil]
    exact ⟨h, hgone⟩
  next p _ =>
  have hgone : ((s.setParked w t none).workers w).parked t = none := by
    rw [setParked_parked, if_pos ⟨rfl, rfl⟩]
  refine awake_gather (I := fun _ R s => Awake s w R U ∧ (s.workers w).parked t = none)
    (fun o _ R s ⟨hawake, hnone⟩ => ⟨hawake.leave hnone, ?_⟩) p.participants.val ⟨h.unpark, hgone⟩
  rw [parked_leave]
  exact hnone

theorem Awake.pop (h : Awake s w R U) (hgone : (s.workers w).parked t = none)
    (hhead : ((s.workers w).queues object).head? = some (.txn t)) :
    Awake (s.pop site e w object).2 w (R ++ (s.pop site e w object).1) U := by
  obtain ⟨rest, hqueue⟩ := List.head?_eq_some_iff.mp hhead
  have htrimmed : Awake (s.setQueue w object rest) w R fun o => U o ∨ o = object := by
    refine h.trim fun u p hp hmem => ?_
    rw [hqueue] at hmem
    refine (List.mem_cons.mp hmem).resolve_left ?_
    rintro ⟨⟩
    rw [hgone] at hp
    cases hp
  unfold State.pop
  rw [hqueue]
  dsimp only
  split
  · next hempty =>
    rw [List.append_nil]
    refine Awake.calm ?_ (keeps_maybeReturnHome site w object)
      ((calm_maybeReturnHome site w object).boats w)
    exact htrimmed.emptied ((queues_setQueue_self s _).trans (List.isEmpty_iff.mp hempty))
  · exact htrimmed.serviceFront

theorem unshipped_iff {b : Boats ι Unit} {o : ι} :
    b.unshipped o = true ↔ o ∈ b.dirty ∨ ∃ boat, b.inflight = some boat ∧ o ∈ boat := by
  rw [Boats.unshipped, Bool.or_eq_true, AList.lookup_isSome, Option.any_eq_true]
  simp only [decide_eq_true_eq]

theorem unshipped_applied {b : Boats ι Unit} {o : ι} (h : b.unshipped o = true) (bytes : ι → Nat)
    (txn : AppliedTxn ι Unit) : (b.applied bytes txn).unshipped o = true := by
  rw [unshipped_iff] at h ⊢
  rw [Boats.mem_applied, Boats.applied_inflight]
  exact h.imp_left .inr

/-- What a revert cleans is in its closure, and not in flight. -/
theorem unshipped_reverted {b : Boats ι Unit} {o : ι} (h : b.unshipped o = true)
    (seed : List ι) : (b.reverted seed).unshipped o = true ∨
      o ∈ b.closure seed ∧ ∀ boat, b.inflight = some boat → o ∉ boat := by
  rw [unshipped_iff] at h
  rw [unshipped_iff, Boats.reverted_inflight]
  by_cases hflies : ∃ boat, b.inflight = some boat ∧ o ∈ boat
  · exact .inl (.inr hflies)
  by_cases hmem : o ∈ b.closure seed
  · exact .inr ⟨hmem, fun boat hboat ho => hflies ⟨boat, hboat, ho⟩⟩
  · refine .inl (.inl ?_)
    rw [Boats.reverted, Boats.mem_cleanAll]
    exact ⟨hmem, h.resolve_right hflies⟩

theorem keeps_revertClosure (seed : List ι) : Keeps w s (s.revertClosure w seed) :=
  keeps_update rfl fun _ ho => List.mem_append_left _ ho

/-- Whatever a revert cleans is flagged, if anyone stands in its queue. -/
theorem flagged_revertClosure {seed : List ι} {o : ι} (ho : o ∈ (s.workers w).boats.closure seed)
    (hqueue : (s.workers w).queues o ≠ []) :
    o ∈ ((s.revertClosure w seed).workers w).needsService := by
  rw [State.revertClosure, update_self]
  exact List.mem_append_right _ (List.mem_filter.mpr ⟨ho, decide_eq_true hqueue⟩)

theorem boats_revertClosure (s : State ι) (w : Nat) (seed : List ι) :
    ((s.revertClosure w seed).workers w).boats = (s.workers w).boats.reverted seed := by
  rw [State.revertClosure, update_self]

/-- What is still to be served, besides what is flagged. -/
def Flagged (s : State ι) (w : Nat) (U : ι → Prop) (o : ι) : Prop :=
  U o ∨ o ∈ (s.workers w).needsService

theorem Spares.of_flagged (h : Spares w s s') {o : ι} (ho : Flagged s w U o) : Flagged s' w U o :=
  ho.imp_right (h.flagged o)

theorem ne_nil_of_head {queue : List Entry} {a : Entry} (h : queue.head? = some a) :
    queue ≠ [] := by
  rintro rfl
  cases h

theorem Awake.revertClosure (h : Awake s w R (Flagged s w U)) (seed : List ι) :
    Awake (s.revertClosure w seed) w R (Flagged (s.revertClosure w seed) w U) := by
  have hkeeps : Keeps w s (s.revertClosure w seed) := keeps_revertClosure seed
  refine h.keeps hkeeps (fun _ ho => hkeeps.of_flagged ho) fun o taker resp hhead hship => ?_
  rw [boats_revertClosure]
  refine (unshipped_reverted hship seed).imp_right fun ⟨hmem, _⟩ => .inr ?_
  exact flagged_revertClosure hmem (ne_nil_of_head hhead)

/-- What `maybe_launch` reverts: the closure of the dirty objects that are owned elsewhere, and the
boat it cuts if that cannot be read. -/
def Sinks (site : Site ι) (e : Env ι) (w : Nat) (b : Boats ι Unit) (o : ι) : Prop :=
  let orphaned := b.dirty.keys.filter fun o => e.owner o ≠ w
  let kept := if orphaned.isEmpty then b else b.reverted orphaned
  (orphaned ≠ [] ∧ o ∈ b.closure orphaned) ∨
    kept.inflight = none ∧ e.readable = false ∧ o ∈ (kept.cut site.maxBoatBytes).objects

/-- What a launch cleans is flagged, and was to be carried by a boat that cannot be read. -/
theorem launch_cleans {o : ι} (hqueue : (s.workers w).queues o ≠ [])
    (hship : (s.workers w).boats.unshipped o = true) :
    ((s.launch site e w).workers w).boats.unshipped o = true ∨
      o ∈ ((s.launch site e w).workers w).needsService ∧ (s.workers w).boats.inflight = none ∧
        e.readable = false ∧ o ∈ ((s.workers w).boats.cut site.maxBoatBytes).objects := by
  unfold State.launch
  dsimp only
  split
  · exact .inl hship
  next hlaunches =>
  have hnone : (s.workers w).boats.inflight = none := by
    rw [Bool.or_eq_true, not_or, Bool.not_eq_true, Option.isSome_eq_false_iff,
      Option.isNone_iff_eq_none] at hlaunches
    exact hlaunches.1
  have hdirty : o ∈ (s.workers w).boats.dirty := by
    refine (unshipped_iff.mp hship).resolve_right ?_
    rintro ⟨boat, hboat, _⟩
    rw [hnone] at hboat
    cases hboat
  split
  · split
    · rw [update_self, unshipped_iff]
      refine .inl ?_
      by_cases hmem : o ∈ ((s.workers w).boats.cut site.maxBoatBytes).objects
      · exact .inr ⟨_, rfl, hmem⟩
      · refine .inl ?_
        dsimp only
        rw [Boats.ashore, Boats.mem_cleanAll]
        exact ⟨hmem, hdirty⟩
    · rw [update_self]
      exact .inl hship
  next hread =>
  rw [update_self]
  by_cases hmem : o ∈ ((s.workers w).boats.cut site.maxBoatBytes).objects
  · refine .inr ⟨List.mem_append_right _ (List.mem_filter.mpr ⟨hmem, decide_eq_true hqueue⟩),
      hnone, ?_, hmem⟩
    rwa [Bool.not_eq_true] at hread
  · refine .inl (unshipped_iff.mpr (.inl ?_))
    dsimp only
    rw [Boats.ashore, Boats.mem_cleanAll]
    exact ⟨hmem, hdirty⟩

theorem keeps_launch : Keeps w s (s.launch site e w) := by
  unfold State.launch
  dsimp only
  split
  · exact .refl s
  split
  · split
    · exact keeps_update rfl fun _ ho => ho
    · exact keeps_update rfl fun _ ho => ho
  · exact keeps_update rfl fun _ ho => List.mem_append_left _ ho

theorem keeps_revertOrphaned : Keeps w s (s.revertOrphaned e w) := by
  unfold State.revertOrphaned
  dsimp only
  split
  · exact .refl s
  · exact keeps_revertClosure _

theorem keeps_maybeLaunch : Keeps w s (s.maybeLaunch site e w) :=
  keeps_revertOrphaned.trans keeps_launch

/-- What `maybe_launch` cleans is flagged, and was not in flight. -/
theorem maybeLaunch_cleans {o : ι} (hqueue : (s.workers w).queues o ≠ [])
    (hship : (s.workers w).boats.unshipped o = true) :
    ((s.maybeLaunch site e w).workers w).boats.unshipped o = true ∨
      o ∈ ((s.maybeLaunch site e w).workers w).needsService ∧
        Sinks site e w (s.workers w).boats o ∧
        ∀ boat, (s.workers w).boats.inflight = some boat → o ∉ boat := by
  unfold State.maybeLaunch State.revertOrphaned Sinks
  dsimp only
  split
  · refine (launch_cleans hqueue hship).imp_right ?_
    rintro ⟨hflag, hnone, hread, hmem⟩
    refine ⟨hflag, .inr ⟨hnone, hread, hmem⟩, fun boat hboat => ?_⟩
    rw [hnone] at hboat
    cases hboat
  next hsome =>
  rcases unshipped_reverted hship
    ((s.workers w).boats.dirty.keys.filter fun o => e.owner o ≠ w) with hstill | ⟨hmem, hland⟩
  · rw [← boats_revertClosure] at hstill
    refine (launch_cleans ?_ hstill).imp_right ?_
    · rw [(keeps_revertClosure _).locks]
      exact hqueue
    rintro ⟨hflag, hnone, hread, hmem⟩
    rw [boats_revertClosure] at hnone hmem
    refine ⟨hflag, .inr ⟨hnone, hread, hmem⟩, fun boat hboat => ?_⟩
    rw [Boats.reverted_inflight, hboat] at hnone
    cases hnone
  · refine .inr ⟨?_, .inl ⟨fun hnil => hsome (List.isEmpty_iff.mpr hnil), hmem⟩, hland⟩
    exact keeps_launch.flagged o (flagged_revertClosure hmem hqueue)

theorem Awake.maybeLaunch (h : Awake s w R (Flagged s w U)) :
    Awake (s.maybeLaunch site e w) w R (Flagged (s.maybeLaunch site e w) w U) := by
  have hkeeps : Keeps w s (s.maybeLaunch site e w) := keeps_maybeLaunch
  refine h.keeps hkeeps (fun _ ho => hkeeps.of_flagged ho) fun o taker resp hhead hship => ?_
  exact (maybeLaunch_cleans (ne_nil_of_head hhead) hship).imp_right fun hflag => .inr hflag.1

theorem Awake.applied (h : Awake s w R (Flagged s w U)) (bytes : ι → Nat)
    (txn : AppliedTxn ι Unit) :
    Awake (s.update w { s.workers w with boats := (s.workers w).boats.applied bytes txn }) w R
      (Flagged (s.update w { s.workers w with
        boats := (s.workers w).boats.applied bytes txn }) w U) := by
  refine h.keeps (keeps_update rfl fun _ ho => ho) (fun o ho => ?_) fun o _ _ _ hship => ?_
  · rw [Flagged, update_self]
    exact ho
  · rw [update_self]
    exact .inl (unshipped_applied hship ..)

theorem Awake.apply (h : Awake s w R (Flagged s w U)) (p : Parked ι) :
    Awake (s.apply e w p) w R (Flagged (s.apply e w p) w U) := by
  unfold State.apply
  dsimp only
  split
  · exact h
  split
  · exact h
  · split
    · exact h
    · exact h.revertClosure _
  next changed _ =>
  split
  · exact h
  · exact h.applied ..

/-- Neither the locks nor the boats change, nor is anything flagged. -/
theorem Awake.flagged_calm (h : Awake s w R (Flagged s w U)) (hkeeps : Keeps w s s')
    (hboats : (s'.workers w).boats = (s.workers w).boats) : Awake s' w R (Flagged s' w U) :=
  (h.calm hkeeps hboats).mono (fun _ ht => ht) fun _ ho => hkeeps.of_flagged ho

theorem keeps_refreshes (objects : List ι) (s : State ι) :
    Keeps w s (objects.foldl (fun s o => s.refreshIfStale e w o) s) := by
  induction objects generalizing s with
  | nil => exact .refl s
  | cons o objects ih => exact (keeps_refreshIfStale w o).trans (ih _)

theorem boats_refreshes (objects : List ι) (s : State ι) :
    ((objects.foldl (fun s o => s.refreshIfStale e w o) s).workers w).boats =
      (s.workers w).boats := by
  induction objects generalizing s with
  | nil => rfl
  | cons o objects ih =>
    rw [List.foldl_cons, ih]
    exact (calm_refreshIfStale w o).boats w

theorem flagged_setParked (p : Option (Parked ι)) :
    Flagged (s.setParked w t p) w U = Flagged s w U := by
  funext o
  rw [Flagged, State.setParked, update_self]
  rfl

theorem Awake.perform (h : Awake s w R (Flagged s w U)) (p : Parked ι) :
    Awake (s.perform e w t p) w R (Flagged (s.perform e w t p) w U) := by
  have hunparked : Awake (s.setParked w t none) w R (Flagged (s.setParked w t none) w U) := by
    rw [flagged_setParked]
    exact h.unpark
  unfold State.perform
  refine Awake.apply ?_ p
  split
  · refine Awake.flagged_calm ?_ (keeps_refreshes _ _) (boats_refreshes _ _)
    exact hunparked.flagged_calm (keeps_update rfl fun _ ho => ho) (by rw [update_self])
  · exact hunparked.flagged_calm (keeps_update rfl fun _ ho => ho) (by rw [update_self])

theorem spares_pop : Spares w s (s.pop site e w object).2 := by
  unfold State.pop
  split
  · exact .refl s
  · dsimp only
    split
    · exact (spares_setQueue w object s _).trans (keeps_maybeReturnHome site w object).toSpares
    · exact (spares_setQueue w object s _).trans (spares_serviceFront site w object _)

/-- A transaction that runs wakes who stood behind it. -/
theorem Awake.runAndComplete (h : Awake s w R (Flagged s w U)) (hs : Sound Anywhere Nobody s)
    {p : Parked ι} (hp : (s.workers w).parked t = some p) (hf : p.frontier = none) :
    Awake (s.runAndComplete site e w t p).2 w (R ++ (s.runAndComplete site e w t p).1)
      (Flagged (s.runAndComplete site e w t p).2 w U) := by
  have hpops : Popping Anywhere w t [] (s.execute site e w t p).2 ∧
      Awake (s.execute site e w t p).2 w (R ++ (s.execute site e w t p).1)
        (Flagged (s.perform e w t p) w U) := by
    refine awake_gather (I := fun objects R s' => Popping Anywhere w t objects s' ∧
      Awake s' w R (Flagged (s.perform e w t p) w U)) (fun o objects R s ⟨hpopping, hawake⟩ => ?_)
      p.participants.val ⟨hs.perform hp hf, h.perform p⟩
    exact ⟨hpopping.pop, hawake.pop hpopping.gone (hpopping.heads o List.mem_cons_self)⟩
  have hspares : Spares w (s.perform e w t p) (s.execute site e w t p).2 :=
    spares_gather w (fun _ _ => spares_pop) _ _
  exact (hpops.2.mono (fun _ ht => ht) fun _ ho => hspares.of_flagged ho).maybeLaunch

/-- What a transaction is asked for goes with it. -/
theorem Asked.erase {u : Nat} {p : Parked ι} (h : Asked s w u p) (hu : u ≠ t)
    (hfetches : ∀ f ∈ s.fetches, f.worker = w → f.txn ≠ t → f ∈ s'.fetches)
    (htasks : ∀ k ∈ s.tasks, k.worker = w → k.txn ≠ t → k ∈ s'.tasks) : Asked s' w u p := by
  refine ⟨fun ha => ?_, fun ht => ?_⟩
  · obtain ⟨f, hf, hfw, rfl⟩ := h.1 ha
    exact ⟨f, hfetches f hf hfw hu, hfw, rfl⟩
  · obtain ⟨k, hk, hkw, rfl⟩ := h.2 ht
    exact ⟨k, htasks k hk hkw hu, hkw, rfl⟩

/-- A transaction that is to be driven has its answer: its flags change. -/
theorem Awake.reply (h : Awake s w R U) {p : Parked ι} (ht : t ∈ R)
    (hworkers : s'.workers = s.workers)
    (hfetches : ∀ f ∈ s.fetches, f.worker = w → f.txn ≠ t → f ∈ s'.fetches)
    (htasks : ∀ k ∈ s.tasks, k.worker = w → k.txn ≠ t → k ∈ s'.tasks)
    (hasked : Asked s' w t p) : Awake (s'.setParked w t (some p)) w R U where
  takes o taker resp hat := by
    rw [setParked_queues, hworkers] at hat
    rw [State.setParked, update_self, hworkers]
    exact h.takes o taker resp hat
  asked u q hq := by
    rw [setParked_parked, hworkers] at hq
    split at hq
    · next heq =>
      cases hq
      rw [heq.2]
      exact hasked
    · next hne =>
      exact ((h.asked u q hq).erase (fun heq => hne ⟨rfl, heq⟩) hfetches htasks).of_same rfl rfl
  rests u q hq := by
    rw [setParked_parked, hworkers] at hq
    split at hq
    · next heq => exact .inl (heq.2 ▸ ht)
    · exact (h.rests u q hq).imp_right fun hrests =>
        hrests.of_queues (by rw [setParked_queues, hworkers]) fun _ hu => hu

/-- An answer comes too late: its transaction is gone. -/
theorem Awake.missed (h : Awake s w R U) (hgone : (s.workers w).parked t = none)
    (hworkers : s'.workers = s.workers)
    (hfetches : ∀ f ∈ s.fetches, f.worker = w → f.txn ≠ t → f ∈ s'.fetches)
    (htasks : ∀ k ∈ s.tasks, k.worker = w → k.txn ≠ t → k ∈ s'.tasks) : Awake s' w R U where
  takes := by
    rw [hworkers]
    exact h.takes
  asked u p hp := by
    rw [hworkers] at hp
    refine (h.asked u p hp).erase ?_ hfetches htasks
    rintro rfl
    rw [hgone] at hp
    cases hp
  rests u p hp := by
    rw [hworkers] at hp
    exact (h.rests u p hp).imp_right fun hrests =>
      hrests.of_queues (by rw [hworkers]) fun _ hu => hu

/-- A transaction that is to be driven changes its flags, or acquires. -/
theorem Awake.repark (h : Awake s w R U) {p : Parked ι} (ht : t ∈ R) (hasked : Asked s w t p) :
    Awake (s.setParked w t (some p)) w R U :=
  h.reply ht rfl (fun _ hf _ _ => hf) (fun _ hk _ _ => hk) hasked

/-- A transaction has been driven once it rests. -/
theorem Awake.rested {below : List Nat} (h : Awake s w (below ++ [t]) U)
    (hrests : ∀ p, (s.workers w).parked t = some p → Rests s w U t p) : Awake s w below U where
  takes := h.takes
  asked := h.asked
  rests u p hp := by
    rcases h.rests u p hp with hmem | hrested
    · rcases List.mem_append.mp hmem with hbelow | htop
      · exact .inl hbelow
      · obtain rfl := List.mem_singleton.mp htop
        exact .inr (hrests p hp)
    · exact .inr hrested

/-- An entry at the end of a queue keeps no one else awake. -/
theorem Awake.append (h : Awake s w R U) (a : Entry)
    (hfirst : (s.workers w).queues object = [] → ∀ taker resp, a = .take taker resp → U object) :
    Awake (s.setQueue w object ((s.workers w).queues object ++ [a])) w R U where
  takes o taker resp hat := by
    rw [State.setQueue, update_self]
    rw [setQueue_queues] at hat
    split at hat
    · next heq =>
      obtain ⟨_, rfl⟩ := heq
      cases hqueue : (s.workers w).queues o with
      | nil =>
        rw [hqueue] at hat
        cases hat
        exact .inr (hfirst hqueue taker resp rfl)
      | cons b rest =>
        rw [hqueue] at hat
        refine h.takes o taker resp ?_
        rw [hqueue]
        exact hat
    · exact h.takes o taker resp hat
  asked u p hp := by
    rw [setQueue_parked] at hp
    exact (h.asked u p hp).of_same rfl rfl
  rests u p hp := by
    rw [setQueue_parked] at hp
    refine (h.rests u p hp).imp_right fun hrests => ?_
    cases hrests with
    | activating ha => exact .activating ha
    | taking ht => exact .taking ht
    | @queued o hf hmem hbehind =>
      refine .queued hf ?_ ?_
      · rw [setQueue_queues]
        split
        · next heq => exact List.mem_append_left _ (heq.2 ▸ hmem)
        · exact hmem
      · rw [setQueue_queues]
        split
        · next heq =>
          obtain ⟨_, rfl⟩ := heq
          rwa [List.head?_append_of_ne_nil _ (List.ne_nil_of_mem hmem)]
        · exact hbehind

theorem Awake.enqueue (h : Awake s w R U) : Awake (s.enqueue w t object) w R U := by
  unfold State.enqueue
  dsimp only
  split
  · exact h
  · exact h.append _ fun _ _ _ => nofun

theorem mem_enqueue : .txn t ∈ ((s.enqueue w t object).workers w).queues object := by
  unfold State.enqueue
  dsimp only
  split
  · next hmem => exact hmem
  · rw [queues_setQueue_self]
    exact List.mem_append_right _ List.mem_cons_self

theorem spares_enqueue : Spares w s (s.enqueue w t object) := by
  unfold State.enqueue
  dsimp only
  split
  · exact .refl s
  · exact spares_setQueue w object s _

/-- Fetches and takes only come, or take another step. -/
theorem Awake.grow (h : Awake s w R U) (hworkers : s'.workers = s.workers)
    (hfetches : ∀ f ∈ s.fetches, f ∈ s'.fetches)
    (htasks : ∀ k ∈ s.tasks, ∃ k' ∈ s'.tasks, k'.worker = k.worker ∧ k'.txn = k.txn) :
    Awake s' w R U where
  takes := by
    rw [hworkers]
    exact h.takes
  asked t p hp := by
    rw [hworkers] at hp
    obtain ⟨hactivating, htaking⟩ := h.asked t p hp
    refine ⟨fun ha => ?_, fun ht => ?_⟩
    · obtain ⟨f, hf, hkey⟩ := hactivating ha
      exact ⟨f, hfetches f hf, hkey⟩
    · obtain ⟨k, hk, hkw, hkt⟩ := htaking ht
      obtain ⟨k', hk', hworker, htxn⟩ := htasks k hk
      exact ⟨k', hk', hworker.trans hkw, htxn.trans hkt⟩
  rests t p hp := by
    rw [hworkers] at hp
    exact (h.rests t p hp).imp_right fun hrests =>
      hrests.of_queues (by rw [hworkers]) fun _ hu => hu

/-- A transaction rests as soon as its flag is up. -/
theorem Awake.flag {below : List Nat} (h : Awake s w (below ++ [t]) U) {p : Parked ι}
    (hasked : Asked s w t p) (hup : p.activating = true ∨ p.taking = true) :
    Awake (s.setParked w t (some p)) w below U := by
  refine (h.repark (List.mem_append_right below List.mem_cons_self) hasked).rested fun q hq => ?_
  rw [setParked_parked, if_pos ⟨rfl, rfl⟩] at hq
  cases hq
  exact hup.elim .activating .taking

/-- One pass of `advance`: the transaction goes on, or it rests. -/
theorem Awake.acquire {below : List Nat} (h : Awake s w (below ++ [t]) U) {p : Parked ι}
    (hp : (s.workers w).parked t = some p) (hf : p.frontier = some object) :
    Awake (s.acquire site e w t p object).2 w
      (if (s.acquire site e w t p object).1 then below ++ [t] else below) U := by
  unfold State.acquire
  split
  · have hentered : Awake (s.enqueue w t object) w (below ++ [t]) U := h.enqueue
    have hp' : ((s.enqueue w t object).workers w).parked t = some p := by
      rw [parked_enqueue]
      exact hp
    have hasked := hentered.asked t p hp'
    dsimp only
    split
    · next hbehind =>
      refine hentered.rested fun q hq => ?_
      rw [hp'] at hq
      cases hq
      exact .queued hf mem_enqueue (.inl hbehind)
    split
    · exact hentered.repark (List.mem_append_right below List.mem_cons_self) hasked
    split
    · next ha =>
      refine hentered.rested fun q hq => ?_
      rw [hp'] at hq
      cases hq
      exact .activating ha
    · -- the fetch that starts is the transaction's own
      have hgrown : Awake { s.enqueue w t object with
          fetches := ⟨w, t, object⟩ :: (s.enqueue w t object).fetches } w (below ++ [t]) U :=
        hentered.grow rfl (fun f hf => List.mem_cons_of_mem _ hf) fun k hk => ⟨k, hk, rfl, rfl⟩
      refine hgrown.flag (p := { p with activating := true }) ⟨fun _ => ?_, hasked.2⟩ (.inl rfl)
      exact ⟨_, List.mem_cons_self, rfl, rfl⟩
  · split
    · next ht =>
      refine h.rested fun q hq => ?_
      rw [hp] at hq
      cases hq
      exact .taking ht
    · have hgrown : Awake { s with tasks := s.tasks ++ [⟨w, t, object, .choosing none 0⟩] } w
          (below ++ [t]) U :=
        h.grow rfl (fun f hf => hf) fun k hk => ⟨k, List.mem_append_left _ hk, rfl, rfl⟩
      refine hgrown.flag (p := { p with taking := true }) ⟨(h.asked t p hp).1, fun _ => ?_⟩
        (.inr rfl)
      exact ⟨_, List.mem_append_right _ List.mem_cons_self, rfl, rfl⟩

theorem spares_acquire (p : Parked ι) : Spares w s (s.acquire site e w t p object).2 := by
  unfold State.acquire
  split
  · dsimp only
    split
    · exact spares_enqueue
    split
    · exact spares_enqueue.trans (spares_setParked w _ t _)
    split
    · exact spares_enqueue
    · refine spares_enqueue.trans ((spares_setParked w _ t _).trans ⟨⟨fun _ _ => rfl, ?_, ?_⟩, ?_⟩)
      · exact fun f hf _ => List.mem_cons_of_mem _ hf
      · exact fun k hk _ => ⟨k, hk, rfl, rfl⟩
      · exact fun _ ho => ho
  · split
    · exact .refl s
    · refine (spares_setParked w s t _).trans ⟨⟨fun _ _ => rfl, fun f hf _ => hf, ?_⟩, ?_⟩
      · exact fun k hk _ => ⟨k, List.mem_append_left _ hk, rfl, rfl⟩
      · exact fun _ ho => ho

/-- At rest nothing could go on at a worker; while it pumps, only what its stack drives or its flags
serve. A worker that panicked is at rest for good. -/
def Driven (s : State ι) (w : Nat) : Prop :=
  (s.workers w).panicked = false → Awake s w ((s.workers w).ready.getD []) fun o =>
    (s.workers w).ready.isSome = true ∧ o ∈ (s.workers w).needsService

/-- The pump starts with what is awake. -/
theorem Awake.driven (h : Awake s w R (Flagged s w fun _ => False)) :
    Driven (s.setReady w (some R)) w := by
  intro _
  have hready : ((s.setReady w (some R)).workers w).ready = some R := by
    rw [State.setReady, update_self]
  rw [hready]
  refine (h.setReady (some R)).mono (fun _ ht => ht) fun o ho => ⟨rfl, ?_⟩
  rw [State.setReady, update_self]
  exact ho.resolve_left id

/-- An idle worker's state, as its next message finds it. -/
theorem Driven.idle (h : Driven s w) (hlistens : Listens s w) : Awake s w [] fun _ => False := by
  have hawake := h hlistens.2.2
  rw [hlistens.1] at hawake
  exact hawake.mono (fun _ ht => ht) fun o ho => absurd ho.1 nofun

theorem Awake.start (h : Awake s w [] fun _ => False) :
    Awake s w [] (Flagged s w fun _ => False) := h.mono (fun _ ht => ht) fun _ => .inl

theorem Driven.pump (h : Driven s w) (hs : Sound Anywhere Nobody s) :
    Driven (s.pump site e w) w := by
  unfold State.pump
  dsimp only
  split
  · exact h
  next ready hready =>
  split
  · exact h
  next hup =>
  have hawake := h (by simpa using hup)
  rw [hready] at hawake
  split
  · next hquiet =>
    have hawake : Awake s w ready fun _ => False :=
      hawake.mono (fun _ ht => ht) fun o ho => by
        rw [List.isEmpty_iff.mp hquiet] at ho
        exact absurd ho.2 List.not_mem_nil
    split
    · next hnone =>
      intro _
      rw [List.getLast?_eq_none_iff.mp hnone] at hawake
      rw [State.setReady, update_self]
      exact (hawake.setReady none).mono (fun _ ht => ht) fun _ ho => absurd ho id
    next t htop =>
    obtain ⟨below, hsplit⟩ := List.getLast?_eq_some_iff.mp htop
    rw [hsplit, List.dropLast_concat]
    rw [hsplit] at hawake
    have hflagged : Awake s w (below ++ [t]) (Flagged s w fun _ => False) :=
      hawake.mono (fun _ ht => ht) fun _ => .inl
    unfold State.advance
    split
    · next hgone =>
      refine Awake.driven (hflagged.gone fun u hu => ?_)
      rcases List.mem_append.mp hu with hbelow | hlast
      · exact .inl hbelow
      · exact .inr (List.mem_singleton.mp hlast ▸ hgone)
    next p hp =>
    split
    · next hf =>
      refine Awake.driven ((hflagged.runAndComplete hs hp hf).gone fun u hu => ?_)
      rcases List.mem_append.mp hu with hold | hnew
      · rcases List.mem_append.mp hold with hbelow | hlast
        · exact .inl (List.mem_append_left _ hbelow)
        · obtain rfl := List.mem_singleton.mp hlast
          exact .inr (hs.ran hp hf)
      · exact .inl (List.mem_append_right _ hnew)
    · next object hf =>
      exact Awake.driven ((hawake.acquire hp hf).mono (fun _ ht => ht) fun _ => .inl)
  · -- whatever is flagged is served
    have hcleared : Awake (s.update w { s.workers w with needsService := [] }) w ready fun o =>
        o ∈ (s.workers w).needsService.dedup.insertionSort (· ≤ ·) := by
      have hmarked : Awake s w ready fun o =>
          o ∈ (s.workers w).needsService.dedup.insertionSort (· ≤ ·) := by
        refine hawake.mono (fun _ ht => ht) fun o ho => ?_
        rw [(List.perm_insertionSort _ _).mem_iff, List.mem_dedup]
        exact ho.2
      exact hmarked.of_same (by rw [update_self]) (by rw [update_self]) (by rw [update_self]) rfl
        rfl
    have hserve : ∀ o objects R s, (Awake s w R fun o' => o' ∈ o :: objects) →
        Awake (s.serviceFront site e w o).2 w (R ++ (s.serviceFront site e w o).1) fun o' =>
          o' ∈ objects :=
      fun o objects R s hs => Awake.serviceFront
        (hs.mono (fun _ ht => ht) fun o' ho' => (List.mem_cons.mp ho').symm)
    have hserved := awake_gather (I := fun objects R s => Awake s w R fun o => o ∈ objects) hserve
      _ hcleared
    exact Awake.driven (hserved.mono (fun _ ht => ht) fun o ho => absurd ho List.not_mem_nil)

end Fafo.Acquire
