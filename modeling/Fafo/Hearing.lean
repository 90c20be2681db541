import Fafo.DurablePolls

/-! What polls hear of a message: whoever is dropped is told, and what stays parked does not fire.
-/
namespace Fafo.Polls

variable {ι Img Sql Row : Type} [LinearOrder ι] {site : Site ι Img Sql Row} {e : Env ι}
variable {s s' s'' : State ι Img Sql Row} {t : Txn ι Sql}

/-- The poll has been failed, or told a result that makes it ready, of an image that is still live
or has gone cold since. -/
def Answered (site : Site ι Img Sql Row) (s : State ι Img Sql Row) (q : ι × PendingPoll Sql) :
    Prop :=
  ∃ sent ∈ s.outbox, sent.asker = State.pollAsker q.1 q.2 ∧
    ((∃ error, sent.answer = .error error) ∨ ∃ answer image, sent.answer = .ok answer ∧
      Fires site image q.2 answer.results ∧ (s.live q.1 = some image ∨ s.live q.1 = none))

/-- Objects may go cold, but not where a poll stays parked, and no poll is left unanswered that a
client still waits for. -/
structure Hears (site : Site ι Img Sql Row) (e : Env ι) (s s' : State ι Img Sql Row) : Prop where
  shelf : s'.shelf = s.shelf
  chills : ∀ o, s'.live o = s.live o ∧ s'.logSeq o = s.logSeq o ∨ s'.live o = none
  polls : ∀ q ∈ s'.polls, q ∈ s.polls ∧ s'.live q.1 = s.live q.1 ∧ s'.logSeq q.1 = s.logSeq q.1
  outbox : ∀ sent ∈ s.outbox, sent ∈ s'.outbox
  heard : ∀ q ∈ s.polls, q.2.durable = false →
    q ∈ s'.polls ∨ Answered site s' q ∨ e.gone q.2.resp = true

section

omit [LinearOrder ι]

theorem Hears.refl (s : State ι Img Sql Row) : Hears site e s s :=
  ⟨rfl, fun _ => .inl ⟨rfl, rfl⟩, fun _ h => ⟨h, rfl, rfl⟩, fun _ h => h, fun _ h _ => .inl h⟩

theorem Hears.answered (h : Hears site e s s') {q : ι × PendingPoll Sql} (ha : Answered site s q) :
    Answered site s' q := by
  obtain ⟨sent, hsent, hasker, hanswer⟩ := ha
  refine ⟨sent, h.outbox sent hsent, hasker, hanswer.imp_right ?_⟩
  rintro ⟨answer, image, hok, hfires, hlive⟩
  refine ⟨answer, image, hok, hfires, ?_⟩
  rcases h.chills q.1 with ⟨hsame, -⟩ | hnone
  · rwa [hsame]
  · exact .inr hnone

theorem Hears.trans (h : Hears site e s s') (h' : Hears site e s' s'') : Hears site e s s'' where
  shelf := h'.shelf.trans h.shelf
  chills o := by
    rcases h'.chills o with ⟨hlive, hseq⟩ | hnone
    · rw [hlive, hseq]
      exact h.chills o
    · exact .inr hnone
  polls q hq := by
    obtain ⟨hmid, hlive', hseq'⟩ := h'.polls q hq
    obtain ⟨hold, hlive, hseq⟩ := h.polls q hmid
    exact ⟨hold, hlive'.trans hlive, hseq'.trans hseq⟩
  outbox sent hsent := h'.outbox sent (h.outbox sent hsent)
  heard q hq hdurable := by
    rcases h.heard q hq hdurable with hmid | hanswered | hgone
    · exact h'.heard q hmid hdurable
    · exact .inr (.inl (h'.answered hanswered))
    · exact .inr (.inr hgone)

/-- Nothing of it touches a poll. -/
theorem Hears.of_same (hshelf : s'.shelf = s.shelf) (hlive : s'.live = s.live)
    (hlogSeq : s'.logSeq = s.logSeq) (hpolls : s'.polls = s.polls)
    (houtbox : ∀ sent ∈ s.outbox, sent ∈ s'.outbox) : Hears site e s s' := by
  refine ⟨hshelf, fun o => .inl ⟨by rw [hlive], by rw [hlogSeq]⟩, fun q hq => ?_, houtbox,
    fun q hq _ => .inl (by rwa [hpolls])⟩
  rw [hpolls] at hq
  exact ⟨hq, by rw [hlive], by rw [hlogSeq]⟩

theorem hears_send (asker : Asker ι Sql) (answer : Except ApiError (TxnResponse Row)) :
    Hears site e s (s.send asker answer) :=
  .of_same rfl rfl rfl rfl fun _ h => List.mem_append_left _ h

theorem hears_failAll (askers : List (Asker ι Sql)) (error : ApiError) :
    Hears site e s (s.failAll askers error) :=
  .of_same rfl rfl rfl rfl fun _ h => List.mem_append_left _ h

end

/-- Objects go cold, and their polls are failed. -/
theorem hears_chill (objects : List ι) (hshelf : s'.shelf = s.shelf)
    (hchill : ∀ o, s'.live o = s.live o ∧ s'.logSeq o = s.logSeq o ∨ s'.live o = none)
    (hothers : ∀ o ∉ objects, s'.live o = s.live o ∧ s'.logSeq o = s.logSeq o)
    (hpolls : s'.polls = s.polls.filter fun q => q.1 ∉ objects)
    (houtbox : ∀ sent ∈ s.outbox, sent ∈ s'.outbox)
    (hfailed : ∀ q ∈ s.polls, q.1 ∈ objects →
      ∃ error, ⟨State.pollAsker q.1 q.2, .error error⟩ ∈ s'.outbox) : Hears site e s s' where
  shelf := hshelf
  chills := hchill
  polls q hq := by
    rw [hpolls] at hq
    obtain ⟨hold, hout⟩ := List.mem_filter.mp hq
    exact ⟨hold, hothers q.1 (by simpa using hout)⟩
  outbox := houtbox
  heard q hq _ := by
    by_cases hin : q.1 ∈ objects
    · obtain ⟨error, hsent⟩ := hfailed q hq hin
      exact .inr (.inl ⟨_, hsent, rfl, .inl ⟨error, rfl⟩⟩)
    · rw [hpolls]
      exact .inl (List.mem_filter.mpr ⟨hq, by simpa using hin⟩)

theorem mem_failPolls {objects : List ι} {reason : String} {q : ι × PendingPoll Sql}
    (hq : q ∈ s.polls) (hin : q.1 ∈ objects) :
    ⟨State.pollAsker q.1 q.2, .error (.internal reason)⟩ ∈
      (s.failPolls objects reason).outbox := by
  refine List.mem_append_right _ (List.mem_map.mpr ⟨_, List.mem_map.mpr ⟨q, ?_, rfl⟩, rfl⟩)
  exact List.mem_filter.mpr ⟨hq, decide_eq_true hin⟩

theorem hears_failPolls (objects : List ι) (reason : String) :
    Hears site e s (s.failPolls objects reason) :=
  hears_chill objects rfl (fun _ => .inl ⟨rfl, rfl⟩) (fun _ _ => ⟨rfl, rfl⟩) rfl
    (fun _ h => List.mem_append_left _ h) fun _ hq hin => ⟨_, mem_failPolls hq hin⟩

theorem hears_revertClosure (seed : List ι) : Hears site e s (s.revertClosure seed) := by
  have hs := reverted_revertClosure s seed
  refine hears_chill (s.boats.closure seed) rfl (fun o => ?_) (fun o ho => ?_) hs.polls
    (fun sent hsent => ?_) ?_
  · by_cases ho : o ∈ s.boats.closure seed
    · exact .inr (hs.cold o ho).1
    · exact .inl ⟨(hs.elsewhere o ho).1, (hs.elsewhere o ho).2.1⟩
  · exact ⟨(hs.elsewhere o ho).1, (hs.elsewhere o ho).2.1⟩
  · rw [hs.outbox]
    exact List.mem_append_left _ (List.mem_append_left _ hsent)
  · intro q hq hin
    refine ⟨.internal "state reverted; re-poll", ?_⟩
    rw [hs.outbox]
    refine List.mem_append_right _ (List.mem_map.mpr ⟨q, ?_, rfl⟩)
    exact List.mem_filter.mpr ⟨hq, decide_eq_true hin⟩

theorem hears_revertOrphaned : Hears site e s (s.revertOrphaned e) := by
  unfold State.revertOrphaned
  dsimp only
  split
  · exact Hears.refl s
  · exact hears_revertClosure _

omit [LinearOrder ι] in
/-- What a pass of this durability keeps: it is of the other kind, or does not fire. -/
theorem judge_kept {image : Img} {pass : Bool} {p : PendingPoll Sql}
    (h : (State.judge site e image pass p).isKept = true) (hpass : p.durable = pass)
    (results : List (OpResult Row)) : ¬ Fires site image p results := by
  rintro ⟨⟨result, hquery, rfl⟩, hready⟩
  unfold State.judge at h
  split at h
  · cases h
  · rw [if_neg (not_not.mpr hpass), hquery] at h
    dsimp only at h
    rw [if_pos hready] at h
    cases h

omit [LinearOrder ι] in
/-- What a pass drops has fired, is broken, or its client is gone. -/
theorem judge_not_kept {image : Img} {pass : Bool} {p : PendingPoll Sql}
    (h : (State.judge site e image pass p).isKept = false) :
    e.gone p.resp = true ∨ (∃ results, State.judge site e image pass p =
      .fired results (site.pollHash results) ∧ Fires site image p results) ∨
      ∃ error, State.judge site e image pass p = .broken error := by
  generalize hverdict : State.judge site e image pass p = verdict at h
  cases verdict with
  | kept => cases h
  | broken error => exact .inr (.inr ⟨error, rfl⟩)
  | fired results hash =>
    obtain ⟨-, hfires, rfl⟩ := judge_fired hverdict
    exact .inr (.inl ⟨results, rfl, hfires⟩)
  | dropped =>
    refine .inl ?_
    unfold State.judge at hverdict
    split at hverdict
    · rename_i hgone
      exact hgone
    · split at hverdict
      · cases hverdict
      · split at hverdict
        · dsimp only at hverdict
          split at hverdict <;> cases hverdict
        · cases hverdict

theorem polls_takeFiredPolls {o : ι} {pass : Bool} {q : ι × PendingPoll Sql} :
    q ∈ (s.takeFiredPolls site e o pass).2.polls ↔ q ∈ s.polls ∧ (q.1 = o → ∀ image,
      s.live o = some image → (State.judge site e image pass q.2).isKept = true) := by
  unfold State.takeFiredPolls
  split
  · rename_i hnone
    refine ⟨fun h => ⟨h, fun _ image himage => ?_⟩, fun h => h.1⟩
    rw [hnone] at himage
    cases himage
  · rename_i image hlive
    dsimp only
    rw [List.mem_filter, Bool.or_eq_true]
    refine and_congr_right fun _ => ?_
    constructor
    · rintro (hne | hkept) ho image' himage'
      · exact absurd ho (of_decide_eq_true hne)
      · rw [hlive] at himage'
        cases himage'
        exact hkept
    · intro h
      by_cases ho : q.1 = o
      · exact .inr (h ho image hlive)
      · exact .inl (decide_eq_true ho)

/-- Whoever fires, and whoever cannot run any more, is told. -/
theorem told_takeFiredPolls (e : Env ι) (pass : Bool) {q : ι × PendingPoll Sql} {image : Img}
    (hq : q ∈ s.polls) (hlive : s.live q.1 = some image) :
    (∀ results hash, State.judge site e image pass q.2 = .fired results hash →
      ∃ i, (State.pollAsker q.1 q.2, ⟨.poll i, results, some hash⟩) ∈
        (s.takeFiredPolls site e q.1 pass).1) ∧
    ∀ error, State.judge site e image pass q.2 = .broken error →
      ⟨State.pollAsker q.1 q.2, .error error⟩ ∈
        (s.takeFiredPolls site e q.1 pass).2.outbox := by
  have hon : q ∈ s.pollsOn [q.1] := List.mem_filter.mpr ⟨hq, by simp⟩
  unfold State.takeFiredPolls
  rw [hlive]
  constructor
  · intro results hash hjudge
    obtain ⟨i, hi⟩ := List.mem_iff_getElem?.mp hon
    refine ⟨i, List.mem_filterMap.mpr ⟨(q, i), List.mk_mem_zipIdx_iff_getElem?.mpr hi, ?_⟩⟩
    dsimp only
    rw [hjudge]
  · intro error hjudge
    refine List.mem_append_right _ (List.mem_filterMap.mpr ⟨q, hon, ?_⟩)
    rw [hjudge]

/-- One object's pass, with those it fires answered. -/
theorem hears_fire (o : ι) (pass : Bool) :
    Hears site e s ((s.takeFiredPolls site e o pass).2.sendAll
      (s.takeFiredPolls site e o pass).1) := by
  have htalks : Talks s ((s.takeFiredPolls site e o pass).2.sendAll
      (s.takeFiredPolls site e o pass).1) := (talks_takeFiredPolls o pass).trans (talks_sendAll _)
  refine ⟨htalks.shelf, fun o' => .inl ⟨congrFun htalks.live o', congrFun htalks.logSeq o'⟩,
    fun q hq => ⟨(polls_takeFiredPolls.mp hq).1, congrFun htalks.live q.1,
      congrFun htalks.logSeq q.1⟩, fun sent hsent => ?_, fun q hq _ => ?_⟩
  · refine List.mem_append_left _ ?_
    unfold State.takeFiredPolls
    split
    · exact hsent
    · exact List.mem_append_left _ hsent
  · by_cases hkept : q ∈ (s.takeFiredPolls site e o pass).2.polls
    · exact .inl hkept
    · rw [polls_takeFiredPolls] at hkept
      push Not at hkept
      obtain ⟨rfl, image, hlive, hnot⟩ := hkept hq
      obtain ⟨hfired, hbroken⟩ := told_takeFiredPolls e pass hq hlive
      rcases judge_not_kept (by simpa using hnot) with hgone | ⟨results, hjudge, hfires⟩ |
        ⟨error, hjudge⟩
      · exact .inr (.inr hgone)
      · obtain ⟨i, hi⟩ := hfired results _ hjudge
        refine .inr (.inl ⟨_, List.mem_append_right _ (List.mem_map.mpr ⟨_, hi, rfl⟩), rfl,
          .inr ?_⟩)
        exact ⟨_, image, rfl, hfires, .inl ((congrFun htalks.live q.1).trans hlive)⟩
      · refine .inr (.inl ⟨_, List.mem_append_left _ (hbroken error hjudge), rfl, .inl ?_⟩)
        exact ⟨error, rfl⟩

theorem hears_firePolls (pass : Bool) (objects : List ι) :
    Hears site e s (s.firePolls site e pass objects) := by
  unfold State.firePolls
  induction objects generalizing s with
  | nil => exact Hears.refl s
  | cons o objects ih => exact (hears_fire o pass).trans ih

/-- No poll of the pass that stays parked on one of the objects fires. -/
theorem quiet_firePolls {pass : Bool} {objects : List ι} {q : ι × PendingPoll Sql}
    (hq : q ∈ (s.firePolls site e pass objects).polls) (ho : q.1 ∈ objects)
    (hpass : q.2.durable = pass) {image : Img} (hlive : s.live q.1 = some image)
    (results : List (OpResult Row)) : ¬ Fires site image q.2 results := by
  unfold State.firePolls at hq
  induction objects generalizing s with
  | nil => cases ho
  | cons o objects ih =>
    have htalks : Talks s ((s.takeFiredPolls site e o pass).2.sendAll
        (s.takeFiredPolls site e o pass).1) := (talks_takeFiredPolls o pass).trans (talks_sendAll _)
    by_cases hhead : q.1 = o
    · have hmid := ((hears_firePolls pass objects : Hears site e _ _).polls q hq).1
      have hkept := (polls_takeFiredPolls.mp hmid).2 hhead image (hhead ▸ hlive)
      exact judge_kept hkept hpass results
    · refine ih hq ((List.mem_cons.mp ho).resolve_left hhead) ?_
      exact (congrFun htalks.live q.1).trans hlive

/-- A pass for durable polls leaves the others alone. -/
theorem hears_takeFiredPolls (o : ι) : Hears site e s (s.takeFiredPolls site e o true).2 := by
  have htalks : Talks s (s.takeFiredPolls site e o true).2 := talks_takeFiredPolls o true
  refine ⟨htalks.shelf, fun o' => .inl ⟨congrFun htalks.live o', congrFun htalks.logSeq o'⟩,
    fun q hq => ⟨(polls_takeFiredPolls.mp hq).1, congrFun htalks.live q.1,
      congrFun htalks.logSeq q.1⟩, fun sent hsent => ?_, fun q hq hdurable => ?_⟩
  · unfold State.takeFiredPolls
    split
    · exact hsent
    · exact List.mem_append_left _ hsent
  · by_cases hkept : q ∈ (s.takeFiredPolls site e o true).2.polls
    · exact .inl hkept
    · rw [polls_takeFiredPolls] at hkept
      push Not at hkept
      obtain ⟨rfl, image, hlive, hnot⟩ := hkept hq
      obtain ⟨-, hbroken⟩ := told_takeFiredPolls e true hq hlive
      rcases judge_not_kept (by simpa using hnot) with hgone | ⟨results, hjudge, -⟩ |
        ⟨error, hjudge⟩
      · exact .inr (.inr hgone)
      · rw [(judge_fired hjudge).1] at hdurable
        cases hdurable
      · exact .inr (.inl ⟨_, hbroken error hjudge, rfl, .inl ⟨error, rfl⟩⟩)

theorem hears_board (objects : List ι) : Hears site e s (s.board site e objects).2 := by
  have hall : ∀ (objects : List ι) (waiters : List (Waiter ι Sql Row)) (s : State ι Img Sql Row),
      Hears site e s (objects.foldl (fun acc o =>
        let taken := acc.2.takeFiredPolls site e o true
        (acc.1 ++ taken.1, taken.2)) (waiters, s)).2 := by
    intro objects
    induction objects with
    | nil => exact fun _ s => Hears.refl s
    | cons o objects ih => exact fun _ s => (hears_takeFiredPolls o).trans (ih _ _)
  exact hall objects [] s

theorem hears_launch : Hears site e s (s.launch site e) := by
  unfold State.launch
  dsimp only
  split
  · exact Hears.refl s
  split
  · split
    · have hashore : Hears site e s { s with
          boats := s.boats.ashore (s.boats.cut site.maxBoatBytes) } :=
        .of_same rfl rfl rfl rfl fun _ h => h
      exact (hashore.trans (hears_board _)).trans (.of_same rfl rfl rfl rfl fun _ h => h)
    · exact .of_same rfl rfl rfl rfl fun _ h => h
  · -- a live file could not be read: the polls on what the boat was to carry are failed
    generalize s.boats.cut site.maxBoatBytes = cut
    refine Hears.trans ?_ (hears_failAll _ _)
    refine hears_chill cut.objects rfl (fun o => ?_) (fun o ho => ⟨if_neg ho, rfl⟩) rfl
      (fun sent h => List.mem_append_left _ h) fun q hq hin => ⟨_, mem_failPolls hq hin⟩
    change (if o ∈ cut.objects then none else s.live o) = s.live o ∧ _ ∨
      (if o ∈ cut.objects then none else s.live o) = none
    split_ifs
    · exact .inr rfl
    · exact .inl ⟨rfl, rfl⟩

theorem hears_maybeLaunch : Hears site e s (s.maybeLaunch site e) :=
  hears_revertOrphaned.trans hears_launch

theorem hears_finishClosing : Hears site e s s.finishClosing := by
  unfold State.finishClosing
  split
  · exact (hears_failPolls _ _).trans (.of_same rfl rfl rfl rfl fun _ h => h)
  · exact Hears.refl s

theorem hears_relinquish (rebased : Option ι) : Hears site e s (s.relinquish e rebased) := by
  unfold State.relinquish
  split
  · exact Hears.refl s
  · rename_i o
    split
    · have hother {o' : ι} (ho : o' ≠ o) : Function.update s.live o none o' = s.live o' ∧
          Function.update s.logSeq o none o' = s.logSeq o' :=
        ⟨Function.update_of_ne ho _ _, Function.update_of_ne ho _ _⟩
      refine hears_chill [o] rfl (fun o' => ?_) (fun o' ho' => ?_) rfl
        (fun sent h => List.mem_append_left _ h) fun q hq hin => ⟨_, mem_failPolls hq hin⟩
      · by_cases ho : o' = o
        · subst ho
          exact .inr (Function.update_self _ _ _)
        · exact .inl (hother ho)
      · exact hother (by simpa using ho')
    · exact Hears.refl s

/-- A parked poll that is not durable does not fire on what is live, or on what an activation would
make live. -/
def Hushed (site : Site ι Img Sql Row) (s : State ι Img Sql Row) : Prop :=
  ∀ q ∈ s.polls, q.2.durable = false → ∃ image,
    (s.live q.1 = some image ∨ s.live q.1 = none ∧ s.shelf.Current site q.1 image) ∧
      ∀ results, ¬ Fires site image q.2 results

omit [LinearOrder ι] in
theorem Hushed.hears (hs : Hushed site s) (h : Hears site e s s') : Hushed site s' := by
  intro q hq hdurable
  obtain ⟨hold, hlive, -⟩ := h.polls q hq
  rw [hlive, h.shelf]
  exact hs q hold hdurable

omit [LinearOrder ι] in
theorem Shelf.Current.unique {shelf : Shelf ι Img} {o : ι} {image image' : Img}
    (h : shelf.Current site o image) (h' : shelf.Current site o image') : image = image' :=
  h.1.symm.trans h'.1

/-- Objects come and go between cold and current. -/
structure Steady (site : Site ι Img Sql Row) (s s' : State ι Img Sql Row) : Prop where
  shelf : s'.shelf = s.shelf
  polls : s'.polls = s.polls
  outbox : s'.outbox = s.outbox
  live : ∀ o, s'.live o = s.live o ∨ ∃ image, s.shelf.Current site o image ∧
    (s.live o = some image ∨ s.live o = none) ∧ (s'.live o = some image ∨ s'.live o = none)

section

omit [LinearOrder ι]

theorem Steady.refl (s : State ι Img Sql Row) : Steady site s s :=
  ⟨rfl, rfl, rfl, fun _ => .inl rfl⟩

theorem Steady.trans (h : Steady site s s') (h' : Steady site s' s'') : Steady site s s'' where
  shelf := h'.shelf.trans h.shelf
  polls := h'.polls.trans h.polls
  outbox := h'.outbox.trans h.outbox
  live o := by
    rcases h'.live o with hsame | ⟨image, hcurrent, hbefore, hafter⟩
    · rw [hsame]
      exact h.live o
    · rw [h.shelf] at hcurrent
      rcases h.live o with hsame | ⟨image', hcurrent', hbefore', hafter'⟩
      · rw [hsame] at hbefore
        exact .inr ⟨image, hcurrent, hbefore, hafter⟩
      · rw [hcurrent'.unique hcurrent] at hbefore'
        exact .inr ⟨image, hcurrent, hbefore', hafter⟩

theorem Hushed.steady (hs : Hushed site s) (h : Steady site s s') : Hushed site s' := by
  intro q hq hdurable
  rw [h.polls] at hq
  rw [h.shelf]
  obtain ⟨image, hlive, hquiet⟩ := hs q hq hdurable
  rcases h.live q.1 with hsame | ⟨image', hcurrent, hbefore, hafter⟩
  · rw [hsame]
    exact ⟨image, hlive, hquiet⟩
  · have hsame : image = image' := by
      rcases hlive with hsome | ⟨-, hcurrent'⟩
      · rcases hbefore with hsome' | hnone
        · rw [hsome] at hsome'
          exact Option.some.inj hsome'
        · rw [hsome] at hnone
          cases hnone
      · exact hcurrent'.unique hcurrent
    subst hsame
    exact ⟨image, hafter.imp_right fun hnone => ⟨hnone, hcurrent⟩, hquiet⟩

end

/-- The ship task, a fetch or the store moves: nothing goes live or cold, and no poll comes or goes.
-/
structure Offshore (s s' : State ι Img Sql Row) : Prop where
  live : s'.live = s.live
  polls : s'.polls = s.polls

omit [LinearOrder ι] in
theorem Offshore.refl (s : State ι Img Sql Row) : Offshore s s := ⟨rfl, rfl⟩

omit [LinearOrder ι] in
theorem Lands.offshore (h : Lands s s') : Offshore s s' := ⟨h.live, h.polls⟩

theorem offshore_startFetch (o : ι) : Offshore s (s.startFetch site e o) := by
  unfold State.startFetch
  split_ifs
  · exact .refl s
  · have hrecovered := (lands_recoverTouching site s o).1.offshore
    exact ⟨hrecovered.live, hrecovered.polls⟩

theorem offshore_commit : Offshore s (s.commit site) := by
  unfold State.commit
  split
  · rename_i items waiters _
    split
    · have hlanded : Offshore s (s.land site items) := (lands_land items).offshore
      exact ⟨hlanded.live, hlanded.polls⟩
    · exact .refl s
  · exact .refl s

theorem offshore_fail (landed : Bool) (rebased : Option ι) (msg : String) :
    Offshore s (s.fail site landed rebased msg) := by
  unfold State.fail
  split
  · rename_i items waiters _
    have hland : Offshore s (if landed && s.abreast site items then s.land site items else s) := by
      split_ifs
      · exact (lands_land items).offshore
      · exact .refl s
    exact ⟨hland.live, hland.polls⟩
  · exact .refl s

theorem offshore_clear (o : ι) : Offshore s (s.clear site o) := by
  obtain heq | ⟨-, items, waiters, rebased, item, -, -, -, heq⟩ := clear_cases site s o
  · rw [heq]
    exact .refl s
  · rw [heq]
    exact ⟨rfl, rfl⟩

theorem offshore_promote (o : ι) : Offshore s (s.promote site o) := by
  unfold State.promote
  split
  · split
    · split_ifs <;> exact ⟨rfl, rfl⟩
    · exact .refl s
  · exact .refl s

omit [LinearOrder ι] in
theorem offshore_forget (i : Nat) : Offshore s (s.forget site i) := by
  unfold State.forget
  split
  · exact .refl s
  · split_ifs <;> exact ⟨rfl, rfl⟩

theorem offshore_peer (o : ι) (image : Img) : Offshore s (s.peer site o image) := by
  unfold State.peer State.logged
  split_ifs <;> exact ⟨rfl, rfl⟩

theorem offshore_peerClear (o : ι) (seq : Nat) : Offshore s (s.peerClear site o seq) := by
  unfold State.peerClear State.erase
  split_ifs <;> exact ⟨rfl, rfl⟩

end Fafo.Polls
