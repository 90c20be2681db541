import Fafo.Counted

/-! Gapless polls: whatever makes a parked poll's condition true answers it. -/
namespace Fafo.Polls

variable {ι Img Sql Row : Type} [LinearOrder ι] {site : Site ι Img Sql Row} {e : Env ι}
variable {s s' s'' : State ι Img Sql Row} {t : Txn ι Sql}

/-- What is live and clean is what an activation would bring. -/
def Fresh (site : Site ι Img Sql Row) (s : State ι Img Sql Row) : Prop :=
  ∀ o image, s.live o = some image → s.boats.unshipped o = false → s.shelf.Current site o image

theorem Grounded.fresh (hs : Grounded (s.shelf.firm site) s) : Fresh site s :=
  fun _ _ himage hclean => hs.clean himage hclean

theorem Fresh.steady (hs : Fresh site s) (h : Steady site s s') (hboats : s'.boats = s.boats) :
    Fresh site s' := by
  intro o image himage hclean
  rw [hboats] at hclean
  rw [h.shelf]
  rcases h.live o with hsame | ⟨image', hcurrent, -, hafter⟩
  · rw [hsame] at himage
    exact hs o image himage hclean
  · rw [himage] at hafter
    rcases hafter with hsome | hnone
    · cases hsome
      exact hcurrent
    · cases hnone

/-- A clean object takes in the fold it already has, or comes back with it. -/
theorem Fresh.refold (hs : Fresh site s) (hlog : site.logPrimary = true) {o : ι}
    (hclean : s.boats.unshipped o = false) : Steady site s (s.refold site o 0) := by
  refine ⟨rfl, rfl, rfl, fun o' => ?_⟩
  by_cases ho : o' = o
  · subst ho
    have hfold : s.shelf.Current site o' (s.fold site o' 0) := fold_current hlog o'
    refine .inr ⟨s.fold site o' 0, hfold, ?_, .inl (Function.update_self o' _ s.live)⟩
    cases hlive : s.live o' with
    | none => exact .inr rfl
    | some image =>
      rw [(hs o' image hlive hclean).unique hfold]
      exact .inl rfl
  · exact .inl (Function.update_of_ne ho _ _)

theorem Fresh.refreshIfStale (hs : Fresh site s) (hlog : site.logPrimary = true)
    (hwhole : e.Whole) (o : ι) : Steady site s (s.refreshIfStale site e o).2 := by
  obtain heq | ⟨missed, hread, hclean, -, heq⟩ := refreshIfStale_cases site e s o
  · rw [heq]
    exact Steady.refl s
  · rw [heq, hwhole o missed (.inl hread)]
    exact hs.refold hlog hclean

theorem Fresh.refoldCleanBase (hs : Fresh site s) (hlog : site.logPrimary = true)
    (hwhole : e.Whole) (o : ι) : Steady site s (s.refoldCleanBase site e o) := by
  obtain heq | ⟨missed, hread, hclean, -, heq⟩ := refoldCleanBase_cases site e s o
  · rw [heq]
    exact Steady.refl s
  · rw [heq, hwhole o missed (.inl hread)]
    exact hs.refold hlog hclean

theorem Fresh.recount (hs : Fresh site s) (hlog : site.logPrimary = true) (hwhole : e.Whole)
    {o : ι} (hclean : s.boats.unshipped o = false) : Steady site s (s.recount site e o) := by
  obtain heq | ⟨uncounted, missed, -, hread, -, heq⟩ := recount_cases site e s o
  · rw [heq]
    exact Steady.refl s
  · rw [heq, hwhole o missed (.inr hread)]
    exact hs.refold hlog hclean

theorem Fresh.catchUp (hs : Fresh site s) (hwhole : site.logPrimary = true → e.Whole) :
    Steady site s (s.catchUp site e t) := by
  unfold State.catchUp
  split
  · rename_i hlog
    replace hwhole := hwhole hlog
    generalize t.participants = objects
    induction objects generalizing s with
    | nil => exact Steady.refl s
    | cons o objects ih =>
      rw [List.foldl_cons]
      have hfirst : Steady site s (if t.readOnly then (s.refreshIfStale site e o).2
          else s.refoldCleanBase site e o) := by
        split
        · exact hs.refreshIfStale hlog hwhole o
        · exact hs.refoldCleanBase hlog hwhole o
      refine hfirst.trans (ih (hs.steady hfirst ?_))
      split
      · exact (same_refreshIfStale o).boats
      · exact (same_refoldCleanBase o).boats
  · exact Steady.refl s

theorem Fresh.shed (hs : Fresh site s) : Steady site s (s.shed e) := by
  refine ⟨rfl, rfl, rfl, fun o => ?_⟩
  change (if s.boats.unshipped o || e.queued o then s.live o else none) = s.live o ∨
    ∃ image, _ ∧ _ ∧
    ((if s.boats.unshipped o || e.queued o then s.live o else none) = some image ∨
      (if s.boats.unshipped o || e.queued o then s.live o else none) = none)
  split_ifs with hkeep
  · exact .inl rfl
  · cases hlive : s.live o with
    | none => exact .inl rfl
    | some image =>
      refine .inr ⟨image, hs o image hlive ?_, .inl rfl, .inr rfl⟩
      by_contra hun
      exact hkeep (by simp [hun])

/-- What a fetch has brought is current when nothing of the object is live. -/
theorem Grounded.steady_onActivated (hs : Grounded (s.shelf.firm site) s) {f : Fetch ι Img}
    {i : Nat} {ok : Bool} (hf : s.fetches[i]? = some f) :
    Steady site s (({ s with fetches := s.fetches.eraseIdx i } : State ι Img Sql Row).onActivated
      site e f ok) := by
  obtain ⟨hcurrent, hcold⟩ := hs.fetched f (List.mem_of_getElem? hf)
  have hlive (o : ι) : Function.update s.live f.object (some f.image) o = s.live o ∨
      ∃ image, s.shelf.Current site o image ∧ (s.live o = some image ∨ s.live o = none) ∧
        (Function.update s.live f.object (some f.image) o = some image ∨
          Function.update s.live f.object (some f.image) o = none) := by
    by_cases ho : o = f.object
    · subst ho
      exact .inr ⟨f.image, hcurrent, .inr (hcold trivial), .inl (Function.update_self _ _ _)⟩
    · exact .inl (Function.update_of_ne ho _ _)
  unfold State.onActivated
  split
  · dsimp only
    split
    · exact ⟨rfl, rfl, rfl, hlive⟩
    · exact ⟨rfl, rfl, rfl, hlive⟩
  · exact ⟨rfl, rfl, rfl, fun _ => .inl rfl⟩

/-- Afterwards every poll that stays parked is quiet, and every other one has been heard. -/
structure Heeds (site : Site ι Img Sql Row) (e : Env ι) (s s' : State ι Img Sql Row) : Prop where
  hushed : Hushed site s'
  heard : ∀ q ∈ s.polls, q.2.durable = false →
    q ∈ s'.polls ∨ Answered site s' q ∨ e.gone q.2.resp = true

section

omit [LinearOrder ι]

theorem Hushed.heeds (hs : Hushed site s) (h : Hears site e s s') : Heeds site e s s' :=
  ⟨hs.hears h, h.heard⟩

theorem Heeds.hears (hs : Heeds site e s s') (h : Hears site e s' s'') : Heeds site e s s'' where
  hushed := hs.hushed.hears h
  heard q hq hdurable := by
    rcases hs.heard q hq hdurable with hparked | hanswered | hgone
    · exact h.heard q hparked hdurable
    · exact .inr (.inl (h.answered hanswered))
    · exact .inr (.inr hgone)

theorem Hushed.calm (hs : Hushed site s) (h : Steady site s s') : Heeds site e s s' :=
  ⟨hs.steady h, fun _ hq _ => .inl (h.polls ▸ hq)⟩

theorem Heeds.of_steady (h : Steady site s s') (hs : Heeds site e s' s'') : Heeds site e s s'' :=
  ⟨hs.hushed, fun q hq => hs.heard q (h.polls ▸ hq)⟩

end

/-- A poll parks, and does not fire on what it has just read. -/
theorem Hushed.register (hs : Hushed site s) (hfresh : Fresh site s)
    (hwhole : site.logPrimary = true → e.Whole) {po : PollOpts} {o : ι} {op : Op ι Sql}
    {results : List (OpResult Row)}
    (hran : ∃ image result, s.live o = some image ∧ site.query image op.sql = .ok result ∧
      results = [result]) : Heeds site e s (s.register site e t po o op results) := by
  have hrefresh (hlog : site.logPrimary = true) :
      Steady site s (s.refreshIfStale site e.again o).2 :=
    hfresh.refreshIfStale hlog (hwhole hlog).again o
  have hreg : Registered site e t po o op results s (s.register site e t po o op results) :=
    registered_register po o op results
  generalize s.register site e t po o op results = s' at hreg ⊢
  cases hreg with
  | answered _ _ => exact hs.heeds (hears_send _ _)
  | refreshed hlog _ _ _ _ _ => exact (hs.calm (hrefresh hlog)).hears (hears_send _ _)
  | parked hagain hquiet =>
    rename_i next
    have hcalm : Steady site s next := by
      rcases hagain with rfl | ⟨hlog, -, rfl⟩
      · exact Steady.refl _
      · exact hrefresh hlog
    refine ⟨fun q hq hdurable => ?_, fun _ hq _ => .inl ?_⟩
    · rcases List.mem_append.mp hq with hold | hnew
      · exact (hs.steady hcalm) q hold hdurable
      · rw [List.mem_singleton.mp hnew] at hdurable ⊢
        have hsame : next = s := by
          rcases hagain with heq | ⟨-, hdur, -⟩
          · exact heq
          · rw [show po.durable = false from hdurable] at hdur
            cases hdur
        subst hsame
        obtain ⟨image, result, himage, hquery, hresults⟩ := hran
        refine ⟨image, .inl himage, ?_⟩
        rintro results' ⟨⟨result', hquery', rfl⟩, hready⟩
        have hquery' : site.query image op.sql = .ok result' := hquery'
        rw [hquery] at hquery'
        cases hquery'
        have hnot := hquiet hdurable
        rw [hresults] at hnot
        rw [show pollReady po.baseline [result] (site.pollHash [result]) = true from hready] at hnot
        cases hnot
    · refine List.mem_append_left _ ?_
      rwa [hcalm.polls]

/-- After a write, every poll on a participant has been judged against what it left. -/
theorem Hushed.settle_wrote (hs : Hushed site s) {results : List (OpResult Row)}
    {images : ι → Option Img} (hread : t.readOnly = false)
    (hwrote : State.writeOps site s.live t.ops = .ok (results, images)) (changed : List ι) :
    Heeds site e s (({ s with live := fun o => if o ∈ t.participants then images o else s.live o } :
      State ι Img Sql Row).settle site e t results changed) := by
  generalize hnext : ({ s with
    live := fun o => if o ∈ t.participants then images o else s.live o } :
      State ι Img Sql Row) = next
  have hlive : next.live = fun o => if o ∈ t.participants then images o else s.live o := by
    rw [← hnext]
  have hfires {next' : State ι Img Sql Row} (hlive' : next'.live = next.live)
      (hshelf : next'.shelf = s.shelf) (hpolls : next'.polls = s.polls) :
      Heeds site e s (next'.firePolls site e false t.participants) := by
    have hhears : Hears site e next' (next'.firePolls site e false t.participants) :=
      hears_firePolls false _
    refine ⟨fun q hq hdurable => ?_, fun q hq => hhears.heard q (hpolls ▸ hq)⟩
    obtain ⟨hold, hlast, -⟩ := hhears.polls q hq
    rw [hpolls] at hold
    rw [hlast, hhears.shelf, hshelf, hlive', hlive]
    by_cases hin : q.1 ∈ t.participants
    · dsimp only
      rw [if_pos hin]
      cases himage : images q.1 with
      | some image =>
        refine ⟨image, .inl rfl, fun results => ?_⟩
        refine quiet_firePolls hq hin hdurable ?_ results
        rw [hlive', hlive]
        exact (if_pos hin).trans himage
      | none =>
        -- nothing was live there, and nothing has been written
        have hcold : s.live q.1 = none := by
          rcases writeOps_later hwrote q.1 with hsame | ⟨old, new, -, hnew, -⟩
          · rw [← hsame, himage]
          · rw [himage] at hnew
            cases hnew
        have hquiet := hs q hold hdurable
        rwa [hcold] at hquiet
    · dsimp only
      rw [if_neg hin]
      exact hs q hold hdurable
  unfold State.settle
  rw [if_neg (by simp [hread])]
  split_ifs
  · refine hfires rfl ?_ ?_
    · rw [← hnext]
      rfl
    · rw [← hnext]
      rfl
  · have hkept : (next.acknowledge site e t results changed).shelf = next.shelf ∧
        (next.acknowledge site e t results changed).polls = next.polls := by
      unfold State.acknowledge
      dsimp only
      split_ifs
      · exact ⟨rfl, rfl⟩
      · exact ⟨rfl, rfl⟩
    refine hfires (live_acknowledge site e t _ _ next).1 (hkept.1.trans ?_) (hkept.2.trans ?_)
    · rw [← hnext]
      rfl
    · rw [← hnext]

theorem Hushed.execute (hs : Hushed site s) (hfresh : Fresh site s)
    (hwhole : site.logPrimary = true → e.Whole) : Heeds site e s (s.execute site e t) := by
  unfold State.execute
  have happlied : Applied site e t s (s.apply site e t) := applied_apply
  generalize s.apply site e t = applied at happlied ⊢
  cases happlied with
  | refused error => exact hs.heeds (hears_send _ _)
  | half error seed => exact hs.heeds ((hears_revertClosure seed).trans (hears_send _ _))
  | wrote hread hwrote => exact hs.settle_wrote hread hwrote _
  | read hread hresults =>
    dsimp only
    obtain ⟨po, o, op, hran, heq⟩ | heq := settle_read (e := e) hread hresults []
    · rw [heq]
      exact hs.register hfresh hwhole hran
    · rw [heq]
      exact hs.heeds (hears_send _ _)

theorem Hushed.runAndComplete (hs : Hushed site s) (hfresh : Fresh site s)
    (hwhole : site.logPrimary = true → e.Whole) :
    Heeds site e s (s.runAndComplete site e t) := by
  have hcalm : Steady site s (s.catchUp site e t) := hfresh.catchUp hwhole
  have hexecuted : Heeds site e (s.catchUp site e t) ((s.catchUp site e t).execute site e t) :=
    (hs.steady hcalm).execute (hfresh.steady hcalm same_catchUp.boats) hwhole
  exact .of_steady hcalm (hexecuted.hears hears_maybeLaunch)

/-- A boat is back, with its objects as live as they were. -/
theorem Hushed.onShipDone (hs : Hushed site s) : Heeds site e s (s.onShipDone site e) := by
  have hidle {s' : State ι Img Sql Row} (hshelf : s'.shelf = s.shelf) (hlive : s'.live = s.live)
      (hpolls : s'.polls = s.polls) (houtbox : s'.outbox = s.outbox) : Steady site s s' :=
    ⟨hshelf, hpolls, houtbox, fun o => .inl (congrFun hlive o)⟩
  unfold State.onShipDone
  split
  · refine Heeds.hears ?_ (hears_maybeLaunch.trans hears_finishClosing)
    unfold State.landed
    dsimp only
    refine Heeds.hears (hs.calm (hidle ?_ ?_ ?_ ?_)) (hears_firePolls true _)
    · split <;> split <;> rfl
    · split <;> split <;> rfl
    · split <;> split <;> rfl
    · split <;> split <;> rfl
  · refine Heeds.hears ?_ (hears_maybeLaunch.trans hears_finishClosing)
    refine Heeds.hears (hs.calm ?_) ((hears_relinquish _).trans (hears_revertClosure _))
    exact hidle rfl rfl rfl rfl
  · exact hs.calm (Steady.refl s)

theorem Hushed.shutdown (hs : Hushed site s) : Heeds site e s (s.shutdown site e) := by
  have hclosing : Steady site s { s with closing := true } := ⟨rfl, rfl, rfl, fun _ => .inl rfl⟩
  unfold State.shutdown
  exact (hs.calm hclosing).hears (hears_maybeLaunch.trans hears_finishClosing)

theorem mem_firePolls_of_notMem {pass : Bool} {objects : List ι} {q : ι × PendingPoll Sql}
    (hq : q ∈ s.polls) (ho : q.1 ∉ objects) : q ∈ (s.firePolls site e pass objects).polls := by
  unfold State.firePolls
  induction objects generalizing s with
  | nil => exact hq
  | cons o objects ih =>
    obtain ⟨hne, hout⟩ := not_or.mp (mt List.mem_cons.mpr ho)
    refine ih ?_ hout
    exact polls_takeFiredPolls.mpr ⟨hq, fun heq => absurd heq hne⟩

theorem live_recount_of_ne {o o' : ι} (h : o' ≠ o) :
    (s.recount site e o).live o' = s.live o' := by
  obtain heq | ⟨uncounted, missed, -, -, -, heq⟩ := recount_cases site e s o
  · rw [heq]
  · rw [heq]
    exact Function.update_of_ne h _ _

/-- A recheck concerns the polls on its object alone. -/
theorem Hushed.recheck (hs : Hushed site s) (hfresh : Fresh site s)
    (hwhole : site.logPrimary = true → e.Whole) {o : ι} (hclean : s.boats.unshipped o = false) :
    Heeds site e s (s.recheck site e o) ∧ Fresh site (s.recheck site e o) ∧
      (∀ o' ≠ o, (s.recheck site e o).live o' = s.live o') ∧
      (∀ sent ∈ s.outbox, sent ∈ (s.recheck site e o).outbox) ∧
      ∀ q ∈ s.polls, q.1 ≠ o → q ∈ (s.recheck site e o).polls := by
  obtain ⟨next, hsame, hagain, htalks, heq⟩ := recheck_cases site e s o
  have hcalm : Steady site s next := by
    rcases hagain with rfl | ⟨hlog, rfl⟩
    · exact Steady.refl _
    · exact hfresh.recount hlog (hwhole hlog) hclean
  have hhears : Hears site e next (s.recheck site e o) := by
    rw [heq]
    exact (hears_firePolls true [o]).trans (hears_firePolls false [o])
  refine ⟨(hs.calm hcalm).hears hhears, ?_, ?_, ?_, ?_⟩
  · intro o' image himage hclean
    rw [htalks.live] at himage
    rw [htalks.boats] at hclean
    rw [htalks.shelf]
    exact (hfresh.steady hcalm hsame.boats) o' image himage hclean
  · intro o' ho'
    rw [htalks.live]
    rcases hagain with rfl | ⟨-, rfl⟩
    · rfl
    · exact live_recount_of_ne ho'
  · intro sent hsent
    exact hhears.outbox sent (hsame.outbox ▸ hsent)
  · intro q hq hne
    rw [heq]
    refine mem_firePolls_of_notMem (mem_firePolls_of_notMem ?_ (by simpa using hne))
      (by simpa using hne)
    rwa [hsame.polls]

theorem boats_recheck (o : ι) : (s.recheck site e o).boats = s.boats := by
  obtain ⟨next, hsame, -, htalks, -⟩ := recheck_cases site e s o
  exact htalks.boats.trans hsame.boats

theorem Hushed.rechecks {objects : List ι} (hnodup : objects.Nodup) (hs : Hushed site s)
    (hfresh : Fresh site s) (hwhole : site.logPrimary = true → e.Whole)
    (hclean : ∀ o ∈ objects, s.boats.unshipped o = false) :
    Heeds site e s (objects.foldl (State.recheck site e) s) ∧
      ∀ q, q.1 ∉ objects → Answered site s q →
        Answered site (objects.foldl (State.recheck site e) s) q := by
  induction objects generalizing s with
  | nil => exact ⟨hs.calm (Steady.refl s), fun _ _ h => h⟩
  | cons o objects ih =>
    obtain ⟨hout, hnodup⟩ := List.nodup_cons.mp hnodup
    obtain ⟨hcleanhere, hclean⟩ := List.forall_mem_cons.mp hclean
    obtain ⟨hheeds, hfresh', hlive, houtbox, hparked⟩ := hs.recheck hfresh hwhole hcleanhere
    obtain ⟨hrest, hkept⟩ := ih hnodup hheeds.hushed hfresh' fun o' ho' => by
      rw [boats_recheck]
      exact hclean o' ho'
    refine ⟨⟨hrest.hushed, fun q hq hdurable => ?_⟩, fun q hq hanswered => ?_⟩
    · by_cases hin : q.1 ∈ objects
      · -- its own turn is still to come
        have hne : q.1 ≠ o := fun heq => hout (heq ▸ hin)
        exact hrest.heard q (hparked q hq hne) hdurable
      · rcases hheeds.heard q hq hdurable with hstill | hanswered | hgone
        · exact hrest.heard q hstill hdurable
        · exact .inr (.inl (hkept q hin hanswered))
        · exact .inr (.inr hgone)
    · obtain ⟨hne, hq⟩ := not_or.mp (mt List.mem_cons.mpr hq)
      refine hkept q hq ?_
      obtain ⟨sent, hsent, hasker, hanswer⟩ := hanswered
      refine ⟨sent, houtbox sent hsent, hasker, ?_⟩
      rwa [hlive q.1 hne]

theorem Hushed.recheckPolls (hs : Hushed site s) (hfresh : Fresh site s)
    (hwhole : site.logPrimary = true → e.Whole) : Heeds site e s (s.recheckPolls site e) := by
  refine (Hushed.rechecks ((List.nodup_dedup _).filter _) hs hfresh hwhole fun o ho => ?_).1
  simpa using (List.mem_filter.mp ho).2

theorem Grounded.ashore_of_cold (hs : Grounded (s.shelf.firm site) s) {o : ι}
    (hcold : s.live o = none) : ¬ s.Aboard o := by
  intro haboard
  obtain ⟨ship, hship, item, hitem, ho⟩ := hs.aboard_iff.mp haboard
  obtain ⟨image, himage, -⟩ := hs.afloat trivial hship item hitem
  rw [ho, hcold] at himage
  cases himage

omit [LinearOrder ι] in
/-- The store moves on, but not where a poll waits on something cold. -/
theorem Hushed.stored (hs : Hushed site s) (hlive : s'.live = s.live) (hpolls : s'.polls = s.polls)
    (hcurrent : ∀ o image, s.live o = none → s.shelf.Current site o image →
      s'.shelf.Current site o image) : Heeds site e s s' := by
  refine ⟨fun q hq hdurable => ?_, fun q hq _ => .inl (hpolls ▸ hq)⟩
  rw [hpolls] at hq
  rw [hlive]
  obtain ⟨image, hwhere, hquiet⟩ := hs q hq hdurable
  exact ⟨image, hwhere.imp_right fun h => ⟨h.1, hcurrent q.1 image h.1 h.2⟩, hquiet⟩

theorem Hushed.commit (hs : Hushed site s) (hg : Grounded (s.shelf.firm site) s) :
    Heeds site e s (s.commit site) := by
  unfold State.commit
  split
  · rename_i items waiters hship
    split
    · have hlands : Lands s (s.land site items) := lands_land items
      refine hs.stored hlands.live hlands.polls fun o image hcold hcurrent => ?_
      exact hg.current_land hship hcurrent (hg.ashore_of_cold hcold)
    · exact hs.calm (Steady.refl s)
  · exact hs.calm (Steady.refl s)

theorem Hushed.fail (hs : Hushed site s) (hg : Grounded (s.shelf.firm site) s) (landed : Bool)
    (rebased : Option ι) (msg : String) : Heeds site e s (s.fail site landed rebased msg) := by
  unfold State.fail
  split
  · rename_i items waiters hship
    have hlands : Lands s (s.land site items) := lands_land items
    dsimp only
    split
    · refine hs.stored hlands.live hlands.polls fun o image hcold hcurrent => ?_
      exact hg.current_land hship hcurrent (hg.ashore_of_cold hcold)
    · exact hs.stored rfl rfl fun _ _ _ hcurrent => hcurrent
  · exact hs.calm (Steady.refl s)

theorem Hushed.clear (hs : Hushed site s) (hg : Grounded (s.shelf.firm site) s) (o : ι) :
    Heeds site e s (s.clear site o) := by
  obtain heq | ⟨-, items, waiters, rebased, item, hship, hitem, ho, heq⟩ := clear_cases site s o
  · rw [heq]
    exact hs.calm (Steady.refl s)
  · rw [heq]
    refine hs.stored rfl rfl fun o' image hcold hcurrent => hcurrent.erased ?_ item.expectedSeq
    rintro rfl
    exact hg.ashore_of_cold hcold (hg.aboard_iff.mpr ⟨_, hship, item, hitem, ho⟩)

theorem Hushed.promote (hs : Hushed site s) (hg : Grounded (s.shelf.firm site) s) (o : ι) :
    Heeds site e s (s.promote site o) := by
  unfold State.promote
  split
  · rename_i items waiters promoted hship
    split
    · rename_i item hfind
      split
      · exact hs.calm (Steady.refl s)
      · rename_i hskip
        refine hs.stored rfl rfl fun o' image hcold hcurrent => ?_
        have hitem : item ∈ items := List.mem_of_find?_eq_some hfind
        have ho : item.object = o := by simpa using List.find?_some hfind
        have hne : o' ≠ o := by
          rintro rfl
          exact hg.ashore_of_cold hcold (hg.aboard_iff.mpr ⟨_, hship, item, hitem, ho⟩)
        exact hcurrent.promoted hne item.image
    · exact hs.calm (Steady.refl s)
  · exact hs.calm (Steady.refl s)

theorem Hushed.recoverTouching (hs : Hushed site s) (o : ι) :
    Heeds site e s (s.recoverTouching site o) := by
  obtain ⟨hlands, -, -, hcurrent⟩ := lands_recoverTouching site s o
  exact hs.stored hlands.live hlands.polls fun _ _ _ h => hcurrent h

theorem Hushed.startFetch (hs : Hushed site s) (o : ι) :
    Heeds site e s (s.startFetch site e o) := by
  unfold State.startFetch
  split
  · exact hs.calm (Steady.refl s)
  · have hrecovered : Heeds site e s (s.recoverTouching site o) := hs.recoverTouching o
    exact ⟨hrecovered.hushed, hrecovered.heard⟩

omit [LinearOrder ι] in
theorem Hushed.forget (hs : Hushed site s) (i : Nat) : Heeds site e s (s.forget site i) := by
  unfold State.forget
  split
  · exact hs.calm (Steady.refl s)
  · split
    · refine hs.stored rfl rfl fun o image _ hcurrent => ⟨hcurrent.1, ?_⟩
      exact fun hlegacy record hrecord => hcurrent.2 hlegacy record
        (List.mem_of_mem_eraseIdx hrecord)
    · exact hs.calm (Steady.refl s)

/-- The poll of a transaction, as it parks. -/
def Txn.asks (t : Txn ι Sql) (po : PollOpts) (op : Op ι Sql) : ι × PendingPoll Sql :=
  (op.object, ⟨po.conn, po.frame, op.sql, po.durable, po.baseline, t.resp⟩)

/-- It waits, or it has been answered, or its transaction was refused. -/
def Asked (site : Site ι Img Sql Row) (e : Env ι) (t : Txn ι Sql) (s : State ι Img Sql Row)
    (q : ι × PendingPoll Sql) : Prop :=
  q ∈ s.polls ∨ Answered site s q ∨ e.gone t.resp = true ∨
    ∃ error, ⟨⟨t.resp, none⟩, .error error⟩ ∈ s.outbox

omit [LinearOrder ι] in
theorem Asked.hears {q : ι × PendingPoll Sql} (h : Asked site e t s q)
    (hdurable : q.2.durable = false) (hresp : q.2.resp = t.resp) (hh : Hears site e s s') :
    Asked site e t s' q := by
  rcases h with hparked | hanswered | hgone | ⟨error, hsent⟩
  · rcases hh.heard q hparked hdurable with hstill | hanswered | hgone
    · exact .inl hstill
    · exact .inr (.inl hanswered)
    · exact .inr (.inr (.inl (hresp ▸ hgone)))
  · exact .inr (.inl (hh.answered hanswered))
  · exact .inr (.inr (.inl hgone))
  · exact .inr (.inr (.inr ⟨error, hh.outbox _ hsent⟩))

/-- What holds along a run. -/
structure Attentive (site : Site ι Img Sql Row) (s : State ι Img Sql Row) : Prop where
  grounded : Grounded (s.shelf.firm site) s
  hushed : Hushed site s
  counted : site.logPrimary = true → Counted s

/-- Every message but a cancellation heeds the polls. -/
theorem Attentive.heeds (hs : Attentive site s) {m : Move ι Img Sql × Env ι} (halone : Alone s m.1)
    (hwhole : site.logPrimary = true → m.2.Whole)
    (hcancel : ∀ o conn frame, m.1 ≠ .cancelPoll o conn frame) :
    Heeds site m.2 s (s.step site m) := by
  obtain ⟨move, e⟩ := m
  have hquiet : Heeds site e s { s with outbox := [] } := ⟨hs.hushed, fun _ hq _ => .inl hq⟩
  have hg : Grounded (s.shelf.firm site) { s with outbox := [] } := hs.grounded.quiet
  have hh : Hushed site { s with outbox := [] } := hs.hushed
  have hfresh : Fresh site { s with outbox := [] } := hg.fresh
  have hhandle {next : State ι Img Sql Row} (h : Heeds site e { s with outbox := [] } next) :
      Heeds site e s (State.handle { s with outbox := [] } next) := by
    unfold State.handle
    split
    · exact hquiet
    · exact ⟨h.hushed, h.heard⟩
  have hstore {next : State ι Img Sql Row} (h : Heeds site e { s with outbox := [] } next) :
      Heeds site e s next := ⟨h.hushed, h.heard⟩
  unfold State.step
  cases move with
  | run t => exact hhandle (hh.runAndComplete hfresh hwhole)
  | startFetch o => exact hstore (hh.startFetch o)
  | activated i ok =>
    dsimp only
    split
    · exact hquiet
    · rename_i f hf
      exact hhandle (hh.calm (hg.steady_onActivated hf))
  | shipDone => exact hhandle hh.onShipDone
  | shutdown => exact hhandle hh.shutdown
  | shed => exact hhandle (hh.calm hfresh.shed)
  | recheckPolls => exact hhandle (hh.recheckPolls hfresh hwhole)
  | cancelPoll o conn frame => exact absurd rfl (hcancel o conn frame)
  | release o => exact halone.elim
  | arrive o => exact halone.elim
  | commit => exact hstore (hh.commit hg)
  | fail landed rebased msg => exact hstore (hh.fail hg landed rebased msg)
  | clear o => exact hstore (hh.clear hg o)
  | promote o => exact hstore (hh.promote hg o)
  | recover o => exact hstore (hh.recoverTouching o)
  | forget i => exact hstore (hh.forget i)
  | peer o image => exact halone.elim
  | peerClear o seq => exact halone.elim

theorem Attentive.step (hs : Attentive site s) {m : Move ι Img Sql × Env ι} (halone : Alone s m.1)
    (hwhole : site.logPrimary = true → m.2.Whole) (hspares : SparesBoats site s m) :
    Attentive site (s.step site m) := by
  have hfirm : Grounded (s.shelf.standard site true) s := hs.grounded
  have hgrounded : Grounded ((s.step site m).shelf.standard site true) (s.step site m) :=
    Grounded.step hfirm (fun h => by cases h) m (fun _ => hspares) (fun _ _ => halone)
      (fun _ hlog => hwhole hlog) (fun h => by cases h) fun _ hlog => (hs.counted hlog).abreast
  refine ⟨hgrounded, ?_, fun hlog =>
    (hs.counted hlog).step hlog hs.grounded halone (hwhole hlog) hspares⟩
  obtain ⟨move, e⟩ := m
  cases move with
  | cancelPoll o conn frame =>
    -- a cancellation only drops polls
    unfold State.step State.handle
    dsimp only
    split
    · exact hs.hushed
    · exact fun q hq => hs.hushed q (List.mem_filter.mp hq).1
  | _ => exact (hs.heeds halone hwhole fun _ _ _ => nofun).hushed

theorem Attentive.boot (shelf : Shelf ι Img) :
    Attentive site (State.boot shelf : State ι Img Sql Row) := by
  refine ⟨Grounded.boot shelf _, fun q hq => ?_, fun _ => ⟨fun h => ?_, fun q hq => ?_,
    fun f hf => ?_, fun h => ?_⟩⟩
  · cases hq
  · cases h
  · cases hq
  · cases hf
  · cases h

section Demo

/-- A poll waits on object 0, and a write to it makes its condition true. -/
def awaited : List (Move Nat Nat Bool × Env Nat) :=
  [(.startFetch 0, fair), (.activated 0 true, fair), (.run (waitFor 0 false), fair),
    (.run (raise [0]), fair)]

/-- A boat carries object 0 when the local COMMIT of a second write to it fails at object 1: 0 is
reverted, and activated again before the boat's record has landed. A poll parks on what it was, and
0 is shed and activated once more. -/
def overtaken : List (Move Nat Nat Bool × Env Nat) :=
  [(.startFetch 0, fair), (.activated 0 true, fair), (.startFetch 1, fair),
    (.activated 0 true, fair), (.run (raise [0]), fair),
    (.run (raise [0, 1]), { fair with commitError := some (1, "full") }),
    (.startFetch 0, fair), (.activated 0 true, fair), (.run (waitFor 0 false), fair),
    (.commit, fair), (.shipDone, fair), (.shed, fair), (.startFetch 0, fair),
    (.activated 0 true, fair)]

end Demo

end Fafo.Polls
