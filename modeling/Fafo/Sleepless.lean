import Fafo.Waking

/-! No head of a queue sleeps while it could be served. -/
namespace Fafo.Acquire

open Ownership (TransferMeta)

variable {ι : Type} [LinearOrder ι] {site : Site ι} {e : Env ι} {s s' : State ι} {w t : Nat}
  {object : ι} {R : List Nat} {U : ι → Prop}

/-- A worker with nothing that could go on. -/
theorem Awake.at_rest (h : Awake s w [] fun _ => False) : Driven s w :=
  fun _ => h.mono (fun _ => nofun) fun _ => nofun

theorem Awake.submitted (h : Awake s w [] fun _ => False) (participants : Participants ι)
    (readOnly : Bool) : Driven (s.submit w participants readOnly) w := by
  have hparked : Awake (s.setParked w (s.workers w).nextTxn (some { participants, readOnly })) w
      [(s.workers w).nextTxn] fun _ => False :=
    (h.mono (fun _ => nofun) fun _ hu => hu).repark List.mem_cons_self ⟨nofun, nofun⟩
  refine Awake.driven (Awake.mono (hparked.of_same ?_ ?_ ?_ rfl rfl) (fun _ ht => ht) fun _ => .inl)
  all_goals rw [update_self]

/-- A take that is queued waits behind others, or for a ship, or is served. -/
theorem Awake.queueTake {a : Ask ι} (h : Awake s a.dest [] fun _ => False) :
    Driven (s.queueTake site e a) a.dest := by
  unfold State.queueTake
  dsimp only
  split
  · have hserved : Awake s a.dest [] fun o => False ∨ o = a.object :=
      h.mono (fun _ ht => ht) fun _ => .inl
    refine Awake.driven (Awake.mono ?_ (fun _ ht => ht) fun _ => .inl)
    exact (hserved.append (.take a.taker a.resp) fun _ _ _ _ => .inr rfl).serviceFront
  · next hmore =>
    refine (h.append (.take a.taker a.resp) fun hempty => ?_).at_rest
    rw [hempty] at hmore
    exact absurd rfl hmore

theorem Awake.answered (h : Awake s w R U) (resp : Nat) (a : Answer) :
    Awake (s.answer resp a) w R U := h.of_same rfl rfl rfl rfl rfl

theorem keeps_adoptForTake : Keeps w s (s.adoptForTake site e w object).2 := by
  unfold State.adoptForTake
  split
  · exact .refl s
  next generation _ =>
  have hadmitted := keeps_admitDeed site w object (e := e) (s := s) ⟨false, w, none, generation⟩
  split
  · next heq _ =>
    rw [heq] at hadmitted
    exact hadmitted
  · next heq _ =>
    rw [heq] at hadmitted
    exact hadmitted.trans (keeps_update rfl fun _ ho => ho)
  · next heq =>
    rw [heq] at hadmitted
    exact hadmitted

theorem Awake.onTake {a : Ask ι} (h : Awake s a.dest [] fun _ => False) :
    Driven (s.onTake site e a) a.dest := by
  unfold State.onTake
  split
  · exact h.queueTake
  split
  · exact (h.answered _ _).at_rest
  have hadopted : Awake (s.adoptForTake site e a.dest a.object).2 a.dest [] fun _ => False :=
    h.calm keeps_adoptForTake ((calm_adoptForTake site a.dest a.object).boats a.dest)
  split
  · next heq =>
    rw [heq] at hadopted
    exact hadopted.queueTake
  · next heq =>
    rw [heq] at hadopted
    exact (hadopted.answered _ _).at_rest

theorem Awake.failAndPump (h : Awake s w [t] fun _ => False) :
    Driven (s.failAndPump site e w t) w := by
  have hfailed : Awake (s.failTxn site e w t).2 w ([t] ++ (s.failTxn site e w t).1)
      (fun _ => False) ∧ ((s.failTxn site e w t).2.workers w).parked t = none := h.failTxn
  obtain ⟨hawake, hgone⟩ := hfailed
  refine Awake.driven (Awake.mono (hawake.gone fun u hu => ?_) (fun _ ht => ht) fun _ => .inl)
  rcases List.mem_append.mp hu with hlast | hnew
  · obtain rfl := List.mem_singleton.mp hlast
    exact .inr hgone
  · exact .inl hnew

/-- What is left of a list without one of its elements. -/
theorem mem_eraseIdx_of_ne {α : Type} {l : List α} {i : Nat} {a b : α} (ha : l[i]? = some a)
    (hb : b ∈ l) (hne : b ≠ a) : b ∈ l.eraseIdx i := by
  obtain ⟨hlt, rfl⟩ := List.getElem?_eq_some_iff.mp ha
  refine (List.mem_cons.mp ?_).resolve_left hne
  exact (List.getElem_cons_eraseIdx_perm hlt).mem_iff.mpr hb

/-- A take's answer: its transaction is driven, or fails. -/
theorem Awake.onTaken {i : Nat} {k : TakeTask ι} (hk : s.tasks[i]? = some k)
    (h : Awake s k.worker [] fun _ => False) (result : TakenResult) :
    Driven ({ s with tasks := s.tasks.eraseIdx i }.onTaken site e k.worker k.txn k.object result)
      k.worker := by
  have htasks : ∀ k' ∈ s.tasks, k'.worker = k.worker → k'.txn ≠ k.txn →
      k' ∈ s.tasks.eraseIdx i := by
    intro k' hk' _ hne
    exact mem_eraseIdx_of_ne hk hk' fun heq => hne (heq ▸ rfl)
  unfold State.onTaken
  split
  · next hgone =>
    have hmissed : Awake { s with tasks := s.tasks.eraseIdx i } k.worker [] fun _ => False :=
      h.missed hgone rfl (fun _ hf _ _ => hf) htasks
    exact hmissed.at_rest
  next p hp =>
  have hmarked : Awake ({ s with tasks := s.tasks.eraseIdx i }.setParked k.worker k.txn
      (some { p with taking := false })) k.worker [k.txn] fun _ => False := by
    refine Awake.reply (h.mono (fun _ => nofun) fun _ hu => hu) List.mem_cons_self rfl
      (fun _ hf _ _ => hf) htasks ⟨(h.asked k.txn p hp).1, nofun⟩
  generalize { s with tasks := s.tasks.eraseIdx i }.setParked k.worker k.txn
    (some { p with taking := false }) = r at hmarked ⊢
  dsimp only
  split
  · exact Awake.driven (hmarked.mono (fun _ ht => ht) fun _ => .inl)
  · exact hmarked.failAndPump
  next tm =>
  have hadmitted : Awake (if (((r.workers k.worker).memory.owned k.object).isSome) = true
      then (true, r) else r.admitDeed site e k.worker k.object tm).2 k.worker [k.txn]
        fun _ => False := by
    split
    · exact hmarked
    · exact hmarked.calm (keeps_admitDeed site k.worker k.object tm)
        ((calm_admitDeed site k.worker k.object tm).boats k.worker)
  split
  · next heq =>
    rw [heq] at hadmitted
    exact hadmitted.failAndPump
  · next r' heq =>
    rw [heq] at hadmitted
    refine Awake.driven (Awake.mono ?_ (fun _ ht => ht) fun _ => .inl)
    split
    · next hempty =>
      have hpushed : Awake (r'.setQueue k.worker k.object
          ((r'.workers k.worker).queues k.object ++ [.txn k.txn])) k.worker [k.txn]
          fun _ => False :=
        hadmitted.append _ fun _ _ _ => nofun
      rwa [hempty] at hpushed
    · exact hadmitted

theorem Awake.activate {f : Fetch ι} (h : Awake s f.worker [f.txn] fun _ => False) (ok : Bool) :
    Driven (s.activate site e f ok) f.worker := by
  unfold State.activate
  dsimp only
  split
  · refine Awake.driven (Awake.mono ?_ (fun _ ht => ht) fun _ => .inl)
    split
    · exact h.calm (keeps_update rfl fun _ ho => ho) (by rw [update_self])
    · exact h
  · exact h.failAndPump

/-- An activation's end: its transaction is driven, or fails. -/
theorem Awake.onActivated {i : Nat} {f : Fetch ι} (hf : s.fetches[i]? = some f)
    (h : Awake s f.worker [] fun _ => False) (ok : Bool) :
    Driven ({ s with fetches := s.fetches.eraseIdx i }.onActivated site e f ok) f.worker := by
  have hfetches : ∀ f' ∈ s.fetches, f'.worker = f.worker → f'.txn ≠ f.txn →
      f' ∈ s.fetches.eraseIdx i := by
    intro f' hf' _ hne
    exact mem_eraseIdx_of_ne hf hf' fun heq => hne (heq ▸ rfl)
  have htop : Awake s f.worker [f.txn] fun _ => False := h.mono (fun _ => nofun) fun _ hu => hu
  unfold State.onActivated
  split
  · next hgone =>
    have hmissed : Awake { s with fetches := s.fetches.eraseIdx i } f.worker [f.txn]
        fun _ => False :=
      htop.missed hgone rfl hfetches fun _ hk _ _ => hk
    exact hmissed.activate ok
  · next p hp =>
    have hmarked : Awake ({ s with fetches := s.fetches.eraseIdx i }.setParked f.worker f.txn
        (some { p with activating := false })) f.worker [f.txn] fun _ => False :=
      htop.reply List.mem_cons_self rfl hfetches (fun _ hk _ _ => hk)
        ⟨nofun, (h.asked f.txn p hp).2⟩
    exact hmarked.activate ok

theorem keeps_relinquish : Keeps w s (s.relinquish e w object) := by
  unfold State.relinquish
  dsimp only
  split
  · split
    · exact keeps_update rfl fun _ ho => ho
    · exact .refl s
  · split
    · exact keeps_update rfl fun _ ho => ho
    · exact .refl s
  · exact .refl s

/-- What is unshipped stays so, or is among the objects. -/
theorem Awake.relinquish {objects : List ι}
    (h : Awake s w R (Flagged s w fun o => o ∈ objects)) (hmem : object ∈ objects) :
    Awake (s.relinquish e w object) w R
      (Flagged (s.relinquish e w object) w fun o => o ∈ objects) := by
  have hkeeps : Keeps w s (s.relinquish e w object) := keeps_relinquish
  refine h.keeps hkeeps (fun _ ho => hkeeps.of_flagged ho) fun o _ _ _ hship => ?_
  rcases relinquish_worker (e := e) (w := w) s object with hsame | ⟨hboats, _, _⟩
  · rw [hsame]
    exact .inl hship
  · rw [hboats]
    by_cases heq : o = object
    · exact .inr (.inl (heq ▸ hmem))
    · rw [unshipped_iff] at hship ⊢
      rw [Boats.clean_dirty, Boats.clean_inflight, AList.mem_erase]
      exact .inl (hship.imp_left fun hdirty => ⟨heq, hdirty⟩)

theorem keeps_arrive (ok : Bool) {unpromoted objects : List ι} {rebased : Option ι} :
    Keeps w s (s.arrive e w ok unpromoted rebased objects) := by
  have hempty : Keeps w s (s.update w { s.workers w with
    boats := { (s.workers w).boats with inflight := none } }) := keeps_update rfl fun _ ho => ho
  have hreconciled : ∀ s : State ι, Keeps w s (s.reconcile e w rebased) := by
    intro s
    unfold State.reconcile
    split
    · exact keeps_relinquish
    · exact .refl s
  have hlanded : ∀ s : State ι, Keeps w s (s.landed e w ok unpromoted objects) := by
    intro s
    unfold State.landed
    dsimp only
    split
    · split
      · exact .refl s
      · exact keeps_update rfl fun _ ho => ho
    · exact keeps_revertClosure objects
  exact hempty.trans ((hreconciled _).trans (hlanded _))

theorem Awake.landed {unpromoted objects : List ι} {U : ι → Prop} (h : Awake s w R (Flagged s w U))
    (ok : Bool) : Awake (s.landed e w ok unpromoted objects) w R
      (Flagged (s.landed e w ok unpromoted objects) w U) := by
  unfold State.landed
  dsimp only
  split
  · split
    · exact h
    · exact h.applied ..
  · exact h.revertClosure objects

/-- Once a boat is back, only its objects and what is flagged are to be served. -/
theorem Awake.arrive {ok : Bool} {unpromoted objects : List ι} {rebased : Option ι}
    (h : Awake s w R fun _ => False) (hreports : s.reports w ok unpromoted rebased = true)
    (hinflight : (s.workers w).boats.inflight = some objects) :
    Awake (s.arrive e w ok unpromoted rebased objects) w R
      (Flagged (s.arrive e w ok unpromoted rebased objects) w fun o => o ∈ objects) := by
  have hrebased : ∀ o, rebased = some o → o ∈ objects := by
    rcases reports_cases hreports hinflight with ⟨_, hnone, _⟩ | ⟨_, hrebased⟩
    · rw [hnone]
      exact fun _ => nofun
    · exact hrebased
  have hempty : Awake (s.update w { s.workers w with
      boats := { (s.workers w).boats with inflight := none } }) w R (Flagged (s.update w
        { s.workers w with boats := { (s.workers w).boats with inflight := none } }) w
          fun o => o ∈ objects) := by
    refine h.keeps (keeps_update rfl fun _ ho => ho) (fun _ => nofun) fun o _ _ _ hship => ?_
    rw [update_self]
    rcases unshipped_iff.mp hship with hdirty | ⟨boat, hboat, ho⟩
    · exact .inl (unshipped_iff.mpr (.inl hdirty))
    · rw [hinflight] at hboat
      cases hboat
      exact .inr (.inl ho)
  refine Awake.landed ?_ ok
  unfold State.reconcile
  split
  · next object => exact hempty.relinquish (hrebased object rfl)
  · exact hempty

theorem Awake.settle (h : Awake s w R fun o => U o ∨ o = object) :
    Awake (s.settle site e w object).2 w (R ++ (s.settle site e w object).1) U := by
  unfold State.settle
  split
  · exact h.serviceFront
  next hempty =>
  have hawake : Awake s w R U := h.emptied (Classical.not_not.mp hempty)
  split
  · rw [List.append_nil]
    exact hawake
  · rw [List.append_nil]
    exact hawake.calm (keeps_maybeReturnHome site w object)
      ((calm_maybeReturnHome site w object).boats w)

theorem spares_settle : Spares w s (s.settle site e w object).2 := by
  unfold State.settle
  split
  · exact spares_serviceFront site w object s
  · split
    · exact .refl s
    · exact (keeps_maybeReturnHome site w object).toSpares

theorem Awake.onShipDone {ok : Bool} {unpromoted : List ι} {rebased : Option ι}
    (h : Awake s w [] fun _ => False) (hreports : s.reports w ok unpromoted rebased = true) :
    Driven (s.onShipDone site e w ok unpromoted rebased) w := by
  unfold State.onShipDone
  split
  · exact h.at_rest
  next objects hinflight =>
  have hlaunched : Awake ((s.arrive e w ok unpromoted rebased objects).maybeLaunch site e w) w []
      (Flagged ((s.arrive e w ok unpromoted rebased objects).maybeLaunch site e w) w
        fun o => o ∈ objects) := (h.arrive hreports hinflight).maybeLaunch
  generalize (s.arrive e w ok unpromoted rebased objects).maybeLaunch site e w = r at hlaunched ⊢
  dsimp only
  split
  · next hpanicked =>
    intro hup
    rw [hpanicked] at hup
    cases hup
  -- every object of the boat is served in turn
  have hsettle : ∀ o objects R (s' : State ι),
      (Awake s' w R fun o' => o' ∈ o :: objects ∨ o' ∈ (r.workers w).needsService) →
      Awake (s'.settle site e w o).2 w (R ++ (s'.settle site e w o).1) fun o' =>
        o' ∈ objects ∨ o' ∈ (r.workers w).needsService := by
    intro o objects R s' hs'
    refine Awake.settle (hs'.mono (fun _ ht => ht) fun o' ho' => ?_)
    rcases ho' with hmem | hflagged
    · exact (List.mem_cons.mp hmem).symm.imp_left .inl
    · exact .inl (.inr hflagged)
  have hsettled := awake_gather (I := fun objects R s' => Awake s' w R fun o =>
    o ∈ objects ∨ o ∈ (r.workers w).needsService) hsettle objects hlaunched
  have hspares : Spares w r (r.gather (State.settle site e w) objects).2 :=
    spares_gather w (fun _ _ => spares_settle) _ _
  refine Awake.driven (Awake.flagged_calm ?_ (keeps_finishClosing w)
    ((calm_finishClosing w).boats w))
  refine hsettled.mono (fun _ ht => ht) fun o ho => .inr (hspares.flagged o ?_)
  exact ho.resolve_left List.not_mem_nil

theorem keeps_shutdown : Keeps w s (s.shutdown site e w) := by
  have hclosing : Keeps w s (s.update w { s.workers w with closing := true }) :=
    keeps_update rfl fun _ ho => ho
  have hlaunched : Keeps w s
      ((s.update w { s.workers w with closing := true }).maybeLaunch site e w) :=
    hclosing.trans keeps_maybeLaunch
  unfold State.shutdown
  dsimp only
  split
  · exact hlaunched
  · exact hlaunched.trans (keeps_finishClosing w)

/-- No take at the head of a queue waits for what the launch of a Shutdown reverts. -/
def TakesKept (site : Site ι) (s : State ι) (m : Move ι × Env ι) : Prop :=
  ∀ w, m.1 = .shutdown w → Listens s w → ∀ o taker resp,
    ((s.workers w).queues o).head? = some (.take taker resp) →
    Sinks site m.2 w (s.workers w).boats o →
      ∃ boat, (s.workers w).boats.inflight = some boat ∧ o ∈ boat

theorem Awake.shutdown (h : Awake s w [] fun _ => False) (hlistens : Listens s w)
    (hkept : TakesKept site s (.shutdown w, e)) : Driven (s.shutdown site e w) w := by
  have hclosing : Awake (s.update w { s.workers w with closing := true }) w [] fun _ => False :=
    h.calm (keeps_update rfl fun _ ho => ho) (by rw [update_self])
  have hlaunched : Awake ((s.update w { s.workers w with closing := true }).maybeLaunch site e w) w
      [] fun _ => False := by
    refine hclosing.keeps keeps_maybeLaunch (fun _ ho => ho) fun o taker resp hhead hship => ?_
    refine (maybeLaunch_cleans (ne_nil_of_head hhead) hship).imp_right fun ⟨_, hsinks, hland⟩ => ?_
    rw [update_self] at hhead hsinks hland
    obtain ⟨boat, hboat, ho⟩ := hkept w rfl hlistens o taker resp hhead hsinks
    exact hland boat hboat ho
  unfold State.shutdown
  dsimp only
  split
  · exact hlaunched.at_rest
  · exact (hlaunched.calm (keeps_finishClosing w) ((calm_finishClosing w).boats w)).at_rest

section Others

theorem apart_leave : Apart w s (s.leave site e w t object).2 := by
  unfold State.leave
  split
  · exact .refl s
  · dsimp only
    split
    · exact apart_update s _
    · exact (apart_update s _).trans (spares_serviceFront site w object _).toApart

theorem apart_failAndPump : Apart w s (s.failAndPump site e w t) := by
  have hfailed : Apart w s (s.failTxn site e w t).2 := by
    unfold State.failTxn
    split
    · exact .refl s
    next p _ =>
    refine Apart.trans (spares_setParked w s t none).toApart ?_
    exact apart_gather (fun _ _ => apart_leave) p.participants.val (s.setParked w t none)
  exact hfailed.trans (apart_update _ _)

theorem apart_perform (p : Parked ι) : Apart w s (s.perform e w t p) := by
  have happly : ∀ s : State ι, Apart w s (s.apply e w p) := by
    intro s
    unfold State.apply
    dsimp only
    split
    · exact .refl s
    split
    · exact .refl s
    · split
      · exact .refl s
      · exact apart_update s _
    · split
      · exact .refl s
      · exact apart_update s _
  unfold State.perform
  dsimp only
  refine Apart.trans ?_ (happly _)
  split
  · refine Apart.trans ?_ (keeps_refreshes _ _).toApart
    exact (spares_setParked w s t none).toApart.trans (apart_update _ _)
  · exact (spares_setParked w s t none).toApart.trans (apart_update _ _)

theorem apart_pump : Apart w s (s.pump site e w) := by
  unfold State.pump
  dsimp only
  split
  · exact .refl s
  split
  · exact .refl s
  split
  · split
    · exact apart_update s _
    next t _ =>
    unfold State.advance
    split
    · exact apart_update s _
    next p _ =>
    split
    · refine Apart.trans (Apart.trans ?_ keeps_maybeLaunch.toApart) (apart_update _ _)
      have hperformed : Apart w s (s.perform e w t p) := apart_perform p
      exact hperformed.trans (apart_gather (fun _ _ => spares_pop.toApart) _ _)
    · next object _ =>
      have hacquired : Apart w s (s.acquire site e w t p object).2 := (spares_acquire p).toApart
      exact hacquired.trans (apart_update _ _)
  · have hcleared : Apart w s (s.update w { s.workers w with needsService := [] }) :=
      apart_update s _
    refine hcleared.trans (Apart.trans ?_ (apart_update _ _))
    exact apart_gather (fun o s => (spares_serviceFront site w o s).toApart) _ _

theorem apart_queueTake (a : Ask ι) : Apart a.dest s (s.queueTake site e a) := by
  unfold State.queueTake
  dsimp only
  split
  · refine Apart.trans ?_ (apart_update _ _)
    refine Apart.trans ?_ (spares_serviceFront site a.dest a.object _).toApart
    exact apart_update s _
  · exact apart_update s _

theorem apart_onTake (a : Ask ι) : Apart a.dest s (s.onTake site e a) := by
  unfold State.onTake
  split
  · exact apart_queueTake a
  split
  · exact (keeps_answer a.dest s _ _).toApart
  have hadopted : Apart a.dest s (s.adoptForTake site e a.dest a.object).2 :=
    keeps_adoptForTake.toApart
  split
  · next heq =>
    rw [heq] at hadopted
    exact hadopted.trans (apart_queueTake a)
  · next heq =>
    rw [heq] at hadopted
    exact hadopted.trans (keeps_answer a.dest _ _ _).toApart

theorem apart_onTaken (result : TakenResult) : Apart w s (s.onTaken site e w t object result) := by
  unfold State.onTaken
  split
  · exact .refl s
  next p _ =>
  have hmarked : Apart w s (s.setParked w t (some { p with taking := false })) := apart_update s _
  generalize s.setParked w t (some { p with taking := false }) = r at hmarked ⊢
  dsimp only
  split
  · exact hmarked.trans (apart_update r _)
  · exact hmarked.trans apart_failAndPump
  next tm =>
  have hadmitted : Apart w r (if (((r.workers w).memory.owned object).isSome) = true
      then (true, r) else r.admitDeed site e w object tm).2 := by
    split
    · exact .refl r
    · exact (keeps_admitDeed site w object tm).toApart
  split
  · next heq =>
    rw [heq] at hadmitted
    exact hmarked.trans (hadmitted.trans apart_failAndPump)
  · next r' heq =>
    rw [heq] at hadmitted
    refine hmarked.trans (hadmitted.trans (Apart.trans ?_ (apart_update _ _)))
    split
    · exact apart_update r' _
    · exact .refl r'

theorem apart_activate (f : Fetch ι) (ok : Bool) : Apart f.worker s (s.activate site e f ok) := by
  unfold State.activate
  dsimp only
  split
  · refine Apart.trans ?_ (apart_update _ _)
    split
    · exact apart_update s _
    · exact .refl s
  · exact apart_failAndPump

theorem apart_onActivated (f : Fetch ι) (ok : Bool) :
    Apart f.worker s (s.onActivated site e f ok) := by
  unfold State.onActivated
  split
  · exact apart_activate f ok
  · next p _ =>
    have hmarked : Apart f.worker s
        (s.setParked f.worker f.txn (some { p with activating := false })) := apart_update s _
    exact hmarked.trans (apart_activate f ok)

theorem apart_onShipDone (ok : Bool) (unpromoted : List ι) (rebased : Option ι) :
    Apart w s (s.onShipDone site e w ok unpromoted rebased) := by
  unfold State.onShipDone
  split
  · exact .refl s
  next objects _ =>
  have hlaunched : Apart w s
      ((s.arrive e w ok unpromoted rebased objects).maybeLaunch site e w) :=
    (keeps_arrive ok).toApart.trans keeps_maybeLaunch.toApart
  dsimp only
  split
  · exact hlaunched
  · refine hlaunched.trans (Apart.trans ?_ (apart_update _ _))
    exact (apart_gather (fun _ _ => spares_settle.toApart) _ _).trans
      (keeps_finishClosing w).toApart

end Others

/-- What a worker does leaves the others as awake as they were. -/
theorem Apart.driven (hapart : Apart w s s') (h : ∀ v, Driven s v) (hw : Driven s' w) (v : Nat) :
    Driven s' v := by
  by_cases hv : v = w
  · rwa [hv]
  · intro hup
    have hworker := hapart.workers v hv
    rw [hworker] at hup ⊢
    exact (h v hup).apart hapart hv

theorem Driven.whenIdle (h : ∀ v, Driven s v) {next : State ι}
    (hnext : Listens s w → Apart w s next ∧ Driven next w) (v : Nat) :
    Driven (s.whenIdle w next) v := by
  unfold State.whenIdle
  split
  · next hidle =>
    split
    · exact h v
    · next hup =>
      rw [Bool.or_eq_true, not_or, Bool.not_eq_true, Bool.not_eq_true] at hup
      obtain ⟨hapart, hw⟩ := hnext ⟨hidle, hup⟩
      exact hapart.driven h hw v
  · exact h v

/-- The workers are as they were, and their fetches and takes still under way. -/
structure Onward (s s' : State ι) : Prop where
  workers : s'.workers = s.workers
  fetches : ∀ f ∈ s.fetches, f ∈ s'.fetches
  tasks : ∀ k ∈ s.tasks, ∃ k' ∈ s'.tasks, k'.worker = k.worker ∧ k'.txn = k.txn

theorem Onward.refl (s : State ι) : Onward s s :=
  ⟨rfl, fun _ hf => hf, fun k hk => ⟨k, hk, rfl, rfl⟩⟩

theorem Onward.driven (honward : Onward s s') (h : ∀ v, Driven s v) (v : Nat) : Driven s' v := by
  intro hup
  rw [honward.workers] at hup ⊢
  exact (h v hup).grow honward.workers honward.fetches honward.tasks

/-- A task in another phase is the same task. -/
theorem onward_setPhase {i : Nat} {k : TakeTask ι} (hk : s.tasks[i]? = some k) (phase : Phase) :
    Onward s (s.setPhase i k phase) := by
  refine ⟨rfl, fun _ hf => hf, fun k' hk' => ?_⟩
  obtain ⟨j, hj, rfl⟩ := List.mem_iff_getElem.mp hk'
  obtain ⟨hi, rfl⟩ := List.getElem?_eq_some_iff.mp hk
  have hlen : j < (s.setPhase i s.tasks[i] phase).tasks.length := by
    rwa [State.setPhase, List.length_set]
  refine ⟨(s.setPhase i s.tasks[i] phase).tasks[j], List.getElem_mem hlen, ?_⟩
  by_cases heq : i = j
  · subst heq
    simp [State.setPhase]
  · simp [State.setPhase, List.getElem_set_ne heq]

theorem onward_knock {i : Nat} {k : TakeTask ι} (hk : s.tasks[i]? = some k)
    (attempt owner : Nat) : Onward s (s.knock i k attempt owner) := by
  unfold State.knock
  split
  · exact onward_setPhase hk _
  · obtain ⟨hworkers, hfetches, htasks⟩ := onward_setPhase hk (.awaiting owner s.nextResp attempt)
    exact ⟨hworkers, hfetches, htasks⟩

theorem onward_taskStep {i : Nat} {k : TakeTask ι} (hk : s.tasks[i]? = some k) :
    Onward s (s.taskStep e i k) := by
  have hlocal : ∀ deeds, Onward s
      { s.setPhase i k (.done k.worker .alreadyLocal) with deeds } := by
    intro deeds
    obtain ⟨hworkers, hfetches, htasks⟩ := onward_setPhase hk (.done k.worker .alreadyLocal)
    exact ⟨hworkers, hfetches, htasks⟩
  unfold State.taskStep
  split
  · exact .refl s
  · split
    · exact onward_setPhase hk _
    split
    · exact onward_knock hk _ _
    split
    · exact onward_knock hk _ _
    split
    · split
      · exact hlocal _
      split
      · exact onward_knock hk _ _
      · exact onward_knock hk _ _
    · split
      · exact hlocal _
      split
      · exact onward_knock hk _ _
      · exact onward_knock hk _ _
    · exact onward_knock hk _ _
  · split
    · exact .refl s
    · exact onward_setPhase hk _
    · exact onward_setPhase hk _
    · exact onward_setPhase hk _

theorem onward_loseAnswer {i : Nat} {k : TakeTask ι} (hk : s.tasks[i]? = some k) :
    Onward s (s.loseAnswer i k) := by
  unfold State.loseAnswer
  split
  · exact onward_setPhase hk _
  · exact .refl s

theorem Driven.boot (h : ∀ v, Driven s v) (memory : Checkpoint ι) (v : Nat) :
    Driven (s.boot w memory) v := by
  have hapart : Apart w s (s.boot w memory) := by
    refine ⟨fun v hv => boot_ne s memory hv, fun f hf hw => ?_, fun k hk hw => ⟨k, ?_, rfl, rfl⟩⟩
    · exact List.mem_filter.mpr ⟨hf, decide_eq_true hw⟩
    · exact List.mem_filter.mpr ⟨hk, decide_eq_true hw⟩
  refine hapart.driven h (fun _ => ?_) v
  rw [boot_self]
  refine ⟨fun o taker resp hhead => ?_, fun u p hp => ?_, fun u p hp => ?_⟩
  · rw [boot_self] at hhead
    cases hhead
  · rw [boot_self] at hp
    cases hp
  · rw [boot_self] at hp
    cases hp

theorem driven_step (s : State ι) (m : Move ι × Env ι) (hs : Sound Anywhere Nobody s)
    (h : ∀ v, Driven s v) (hkept : TakesKept site s m) (v : Nat) : Driven (s.step site m) v := by
  obtain ⟨m, e⟩ := m
  cases m with
  | submit w participants readOnly =>
    refine Driven.whenIdle h (fun hlistens => ⟨?_, ?_⟩) v
    · exact (spares_setParked w s _ _).toApart.trans
        ((apart_update _ _).trans (apart_update _ _))
    · exact ((h w).idle hlistens).submitted participants readOnly
  | take i =>
    unfold State.step
    dsimp only
    split
    · exact h v
    next a _ =>
    have hasks : Keeps a.dest s { s with asks := s.asks.eraseIdx i } :=
      ⟨.of_same rfl rfl rfl, rfl, rfl, rfl⟩
    refine Driven.whenIdle h (fun hlistens => ⟨hasks.toApart.trans (apart_onTake a), ?_⟩) v
    exact (((h a.dest).idle hlistens).calm hasks rfl).onTake
  | adopt i =>
    unfold State.step
    dsimp only
    split
    · exact h v
    next d _ =>
    have hdeeds : Keeps d.dest s { s with deeds := s.deeds.eraseIdx i } :=
      ⟨.of_same rfl rfl rfl, rfl, rfl, rfl⟩
    have hadmitted : Keeps d.dest s
        ({ s with deeds := s.deeds.eraseIdx i }.admitDeed site e d.dest d.object d.tm).2 :=
      hdeeds.trans (keeps_admitDeed site d.dest d.object d.tm)
    refine Driven.whenIdle h (fun hlistens => ⟨hadmitted.toApart, ?_⟩) v
    exact (((h d.dest).idle hlistens).calm hadmitted
      ((calm_admitDeed site d.dest d.object d.tm).boats d.dest)).at_rest
  | taken i =>
    unfold State.step
    dsimp only
    split
    · next w t object giver result hk =>
      have htasks : Apart w s { s with tasks := s.tasks.eraseIdx i } := by
        refine ⟨fun _ _ => rfl, fun _ hf _ => hf, fun k' hk' hw => ⟨k', ?_, rfl, rfl⟩⟩
        exact mem_eraseIdx_of_ne hk hk' fun heq => hw (heq ▸ rfl)
      refine Driven.whenIdle h (fun hlistens => ⟨htasks.trans (apart_onTaken result), ?_⟩) v
      exact ((h w).idle hlistens).onTaken hk result
    · exact h v
  | activated i ok =>
    unfold State.step
    dsimp only
    split
    · exact h v
    next f hf =>
    have hfetches : Apart f.worker s { s with fetches := s.fetches.eraseIdx i } := by
      refine ⟨fun _ _ => rfl, fun f' hf' hw => ?_, fun k hk _ => ⟨k, hk, rfl, rfl⟩⟩
      exact mem_eraseIdx_of_ne hf hf' fun heq => hw (heq ▸ rfl)
    refine Driven.whenIdle h (fun hlistens => ⟨hfetches.trans (apart_onActivated f ok), ?_⟩) v
    exact ((h f.worker).idle hlistens).onActivated hf ok
  | shipDone w ok unpromoted rebased =>
    unfold State.step
    dsimp only
    split
    · next hreports =>
      refine Driven.whenIdle h (fun hlistens => ⟨apart_onShipDone ok unpromoted rebased, ?_⟩) v
      exact ((h w).idle hlistens).onShipDone hreports
    · exact h v
  | shutdown w =>
    refine Driven.whenIdle h (fun hlistens => ⟨keeps_shutdown.toApart, ?_⟩) v
    exact ((h w).idle hlistens).shutdown hlistens hkept
  | shed w =>
    have hshed : Keeps w s (s.shed w) := keeps_update rfl fun _ ho => ho
    refine Driven.whenIdle h (fun hlistens => ⟨hshed.toApart, ?_⟩) v
    exact (((h w).idle hlistens).calm hshed ((calm_shed w).boats w)).at_rest
  | recheckPolls w object =>
    refine Driven.whenIdle h (fun hlistens => ⟨(keeps_refreshIfStale w object).toApart, ?_⟩) v
    exact (((h w).idle hlistens).calm (keeps_refreshIfStale w object)
      ((calm_refreshIfStale w object).boats w)).at_rest
  | pump w => exact apart_pump.driven h ((h w).pump hs) v
  | task i =>
    unfold State.step
    dsimp only
    split
    · exact h v
    · next hk => exact (onward_taskStep hk).driven h v
  | loseAnswer i =>
    unfold State.step
    dsimp only
    split
    · exact h v
    · next hk => exact (onward_loseAnswer hk).driven h v
  | boot w memory => exact Driven.boot h memory v

/-- Every head of an idle worker's queue waits for an event under way: a take for a ship, and a
transaction for its activation, its take, or those ahead of it at a later participant. -/
def NoSleeper (s : State ι) : Prop :=
  ∀ w, (s.workers w).ready = none → (s.workers w).panicked = false → ∀ o,
    (∀ taker resp, ((s.workers w).queues o).head? = some (.take taker resp) →
      (s.workers w).boats.unshipped o = true) ∧
    ∀ t, ((s.workers w).queues o).head? = some (.txn t) →
      ∃ p, (s.workers w).parked t = some p ∧ Asked s w t p ∧
        (p.activating = true ∨ p.taking = true ∨
          ∃ later, o < later ∧ p.frontier = some later ∧ .txn t ∈ (s.workers w).queues later ∧
            ((s.workers w).queues later).head? ≠ some (.txn t))

theorem Sound.noSleeper (hs : Sound Anywhere Nobody s) (h : ∀ w, Driven s w) : NoSleeper s := by
  intro w hready hup o
  have hawake := h w hup
  rw [hready] at hawake
  refine ⟨fun taker resp hhead => ?_, fun t hhead => ?_⟩
  · exact (hawake.takes o taker resp hhead).resolve_right fun hu => absurd hu.1 nofun
  obtain ⟨p, hp, hreach⟩ := (hs.entry w t o (List.mem_of_mem_head? hhead)).resolve_left id
  refine ⟨p, hp, hawake.asked t p hp, ?_⟩
  cases (hawake.rests t p hp).resolve_left List.not_mem_nil with
  | activating ha => exact .inl ha
  | taking ht => exact .inr (.inl ht)
  | @queued later hf hmem hbehind =>
    have hbehind := hbehind.resolve_right fun hu => absurd hu.1 nofun
    refine .inr (.inr ⟨later, (p.le_frontier hreach hf).lt_of_ne ?_, hf, hmem, hbehind⟩)
    rintro rfl
    exact hbehind hhead

/-- Every head of a queue waits for an event under way, as long as no Shutdown reverts what a take
at the head of a queue waits for. -/
theorem no_sleeper (site : Site ι) (moves : List (Move ι × Env ι))
    (h : Runs.Guarded (State.step site) (TakesKept site) {} moves) :
    Runs.Throughout (State.step site) NoSleeper {} moves := by
  have hstart : Sound Anywhere Nobody ({} : State ι) ∧ ∀ w, Driven ({} : State ι) w := by
    refine ⟨.initial, fun w _ => ⟨fun _ _ _ => nofun, fun _ _ => nofun, fun _ _ => nofun⟩⟩
  refine h.throughout (I := fun s => Sound Anywhere Nobody s ∧ ∀ w, Driven s w)
    (fun s m hs hkept => ⟨?_, ?_⟩) (fun s hs => hs.1.noSleeper hs.2) hstart
  · exact sound_step s m hs.1 (singleBut_anywhere s m)
  · exact driven_step s m hs.1 hs.2 hkept

section Lone

/-- A worker closes; another one works on. -/
theorem no_sleeper_closing :
    Runs.Throughout (State.step lone) NoSleeper {}
      ((.shutdown 1, commits) :: driven (sole 0) commits) := by
  refine no_sleeper lone _ ⟨fun _ _ _ _ _ _ => nofun, ?_⟩
  exact ⟨fun _ => nofun, fun _ => nofun, fun _ => nofun, fun _ => nofun, fun _ => nofun,
    fun _ => nofun, fun _ => nofun, fun _ => nofun, fun _ => nofun, fun _ => nofun, trivial⟩

/-- While object 0 is in flight, objects 1, 2 and 3 are written; no two fit in a boat. Object 0 has
landed, and the file of object 1 cannot be read. Worker 1 takes object 2. The worker is to close,
and the file of object 2 cannot be read either. -/
def sleeping : List (Move Nat × Env Nat) :=
  driven (sole 0) commits ++ driven (sole 1) commits ++ driven (sole 2) commits ++
    driven (sole 3) commits ++ [(.shipDone 0 true [] none, { commits with readable := false })] ++
    List.replicate 3 (.pump 0, commits) ++ [(.submit 1 (sole 2) false, commits)] ++
    List.replicate 3 (.pump 1, commits) ++ [(.task 0, commits), (.take 0, commits)] ++
    List.replicate 3 (.pump 0, commits) ++ [(.shutdown 0, { commits with readable := false })]

/-- The take waits for a ship of object 2, which is clean. -/
theorem take_sleeps : ¬ Runs.Throughout (State.step lone) NoSleeper {} sleeping := by
  have hready : ((Runs.run (State.step lone) {} sleeping).workers 0).ready.isNone = true := by
    decide +kernel
  have hpanicked : ((Runs.run (State.step lone) {} sleeping).workers 0).panicked = false := by
    decide +kernel
  have hhead : (((Runs.run (State.step lone) {} sleeping).workers 0).queues 2).head? =
      some (.take 1 0) := by decide +kernel
  have hclean : ((Runs.run (State.step lone) {} sleeping).workers 0).boats.unshipped 2 = false := by
    decide +kernel
  intro h
  have hship := (h.last 0 (Option.isNone_iff_eq_none.mp hready) hpanicked 2).1 1 0 hhead
  rw [hclean] at hship
  cases hship

end Lone

end Fafo.Acquire
