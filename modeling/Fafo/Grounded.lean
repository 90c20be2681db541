import Fafo.Reverts

/-! What is live and clean is durable, and what a durable poll is told is committed. -/
namespace Fafo.Polls

variable {ι Img Sql Row : Type} [LinearOrder ι] {site : Site ι Img Sql Row} {e : Env ι}
variable {s s' s'' : State ι Img Sql Row}

/-- What an image must be to be as good as the durable one, to be committed, and not to be outranked
by a record that has landed. Under a strict standard a boat's objects stay live until it is back. -/
structure Standard (site : Site ι Img Sql Row) where
  strict : Prop
  durable : ι → Img → Prop
  committed : ι → Img → Prop
  outranks : ι → Img → Prop
  durable_committed : ∀ {o image}, durable o image → committed o image
  durable_outranks : ∀ {o image}, durable o image → outranks o image
  outranks_mono : ∀ {o image image'}, outranks o image →
    site.changeCounter image ≤ site.changeCounter image' → outranks o image'

variable {S : Standard site}

/-- The answer was computed on an image of this kind. -/
def ComputedOn (site : Site ι Img Sql Row) (good : Img → Prop) (sql : Sql)
    (answer : TxnResponse Row) : Prop :=
  ∃ image result, good image ∧ site.query image sql = .ok result ∧ answer.results = [result]

/-- What a durable poll is told was computed on a committed image. -/
def Told (S : Standard site) (sent : Sent ι Sql Row) : Prop :=
  ∀ o p answer, sent.asker.poll = some (o, p) → p.durable = true → sent.answer = .ok answer →
    ComputedOn site (S.committed o) p.sql answer

/-- What a poll that rides a boat will be told was computed on what the boat carries. -/
def Rides (site : Site ι Img Sql Row) (items : List (ShipItem ι Img)) (w : Waiter ι Sql Row) :
    Prop :=
  ∀ o p, w.1.poll = some (o, p) →
    ComputedOn site (fun image => ∃ item ∈ items, item.object = o ∧ item.image = image) p.sql w.2

/-- What is live and clean is durable, and so is what is still to be activated. What is aboard and
has not been written since is what the boat carries. -/
structure Grounded (S : Standard site) (s : State ι Img Sql Row) : Prop where
  matched : s.boats.inflight = s.ship.map fun ship => ship.items.map ShipItem.object
  clean : ∀ {o image}, s.live o = some image → s.boats.unshipped o = false → S.durable o image
  ranked : ∀ {o image}, s.live o = some image → S.outranks o image
  carried : ∀ {ship}, s.ship = some ship → ∀ {o image}, s.live o = some image →
    o ∉ s.boats.dirty → (∃ item ∈ ship.items, item.object = o) →
      (∀ item ∈ ship.items, item.object = o → item.image = image) ∨
        ¬ S.strict ∧ S.durable o image
  landed : ∀ {ship promoted}, s.ship = some ship → ship.voyage = .committed promoted →
    ∀ item ∈ ship.items, (site.logPrimary = true ∨ item.object ∈ promoted) →
      ∃ item' ∈ ship.items, item'.object = item.object ∧ S.durable item.object item'.image
  laden : ∀ {ship}, s.ship = some ship → ∀ item ∈ ship.items, S.outranks item.object item.image
  level : ∀ {ship}, s.ship = some ship → ∀ item ∈ ship.items, ∀ item' ∈ ship.items,
    item'.object = item.object → item'.image = item.image
  afloat : S.strict → ∀ {ship}, s.ship = some ship → ∀ item ∈ ship.items,
    ∃ image, s.live item.object = some image ∧
      site.changeCounter item.image ≤ site.changeCounter image
  fetched : ∀ f ∈ s.fetches, S.durable f.object f.image ∧ (S.strict → s.live f.object = none)
  once : S.strict → (s.fetches.map Fetch.object).Nodup
  riding : ∀ {ship}, s.ship = some ship → ∀ w ∈ ship.waiters, Rides site ship.items w
  waiting : ∀ txn ∈ s.boats.pending, ∀ w, txn.waiter = some w → w.1.poll = none
  told : ∀ sent ∈ s.outbox, Told S sent

/-- A boat carries the object. -/
def State.Aboard (s : State ι Img Sql Row) (o : ι) : Prop :=
  ∃ boat, s.boats.inflight = some boat ∧ o ∈ boat

theorem unshipped_eq_false {o : ι} :
    s.boats.unshipped o = false ↔ o ∉ s.boats.dirty ∧ ¬ s.Aboard o := by
  unfold Boats.unshipped State.Aboard
  rw [← AList.lookup_eq_none]
  cases s.boats.dirty.lookup o <;> cases s.boats.inflight <;> simp

theorem Grounded.aboard_iff (hs : Grounded S s) {o : ι} :
    s.Aboard o ↔ ∃ ship, s.ship = some ship ∧ ∃ item ∈ ship.items, item.object = o := by
  unfold State.Aboard
  rw [hs.matched]
  cases s.ship <;> simp

/-- Nothing moves but what is live, dirty or parked. What is live has been written since, or has
been brought in from the durable image, and not aboard a boat that keeps its objects live. -/
structure Tame (S : Standard site) (s s' : State ι Img Sql Row) : Prop where
  ship : s'.ship = s.ship
  inflight : s'.boats.inflight = s.boats.inflight
  fetches : s'.fetches.Sublist s.fetches
  live : ∀ {o image}, s'.live o = some image →
    (∃ old, s.live o = some old ∧ site.changeCounter old ≤ site.changeCounter image ∧
      (o ∉ s'.boats.dirty → old = image ∧ o ∉ s.boats.dirty)) ∨
    S.durable o image ∧ (S.strict → ¬ s.Aboard o)
  afloat : S.strict → ∀ {o}, s.Aboard o → (s.live o).isSome → (s'.live o).isSome
  frozen : S.strict → ∀ f ∈ s'.fetches, s.live f.object = none → s'.live f.object = none
  waiting : ∀ txn ∈ s'.boats.pending,
    txn ∈ s.boats.pending ∨ ∀ w, txn.waiter = some w → w.1.poll = none
  told : ∀ sent ∈ s'.outbox, sent ∈ s.outbox ∨ Told S sent

omit [LinearOrder ι] in
theorem Tame.aboard (h : Tame S s s') {o : ι} : s'.Aboard o ↔ s.Aboard o := by
  unfold State.Aboard
  rw [h.inflight]

theorem Grounded.tame (hs : Grounded S s) (h : Tame S s s') : Grounded S s' where
  matched := by rw [h.inflight, h.ship, hs.matched]
  clean {o image} hlive hclean := by
    obtain ⟨hdirty, haboard⟩ := unshipped_eq_false.mp hclean
    rcases h.live hlive with ⟨old, hold, -, hsame⟩ | ⟨hdurable, -⟩
    · obtain ⟨rfl, hwas⟩ := hsame hdirty
      exact hs.clean hold (unshipped_eq_false.mpr ⟨hwas, fun hin => haboard (h.aboard.mpr hin)⟩)
    · exact hdurable
  ranked hlive := by
    rcases h.live hlive with ⟨old, hold, hle, -⟩ | ⟨hdurable, -⟩
    · exact S.outranks_mono (hs.ranked hold) hle
    · exact S.durable_outranks hdurable
  carried {ship} hship {o image} hlive hdirty hin := by
    rw [h.ship] at hship
    rcases h.live hlive with ⟨old, hold, -, hsame⟩ | ⟨hdurable, hashore⟩
    · obtain ⟨rfl, hwas⟩ := hsame hdirty
      exact hs.carried hship hold hwas hin
    · exact .inr ⟨fun hstrict => hashore hstrict (hs.aboard_iff.mpr ⟨ship, hship, hin⟩), hdurable⟩
  landed hship := hs.landed (h.ship ▸ hship)
  laden hship := hs.laden (h.ship ▸ hship)
  level hship := hs.level (h.ship ▸ hship)
  afloat hstrict ship hship item hitem := by
    rw [h.ship] at hship
    have haboard : s.Aboard item.object := hs.aboard_iff.mpr ⟨ship, hship, item, hitem, rfl⟩
    obtain ⟨old, hold, hle⟩ := hs.afloat hstrict hship item hitem
    obtain ⟨image, himage⟩ :=
      Option.isSome_iff_exists.mp (h.afloat hstrict haboard (hold ▸ rfl))
    refine ⟨image, himage, ?_⟩
    rcases h.live himage with ⟨old', hold', hle', -⟩ | ⟨-, hashore⟩
    · rw [hold] at hold'
      cases hold'
      omega
    · exact absurd haboard (hashore hstrict)
  fetched f hf := by
    obtain ⟨hdurable, hcold⟩ := hs.fetched f (h.fetches.subset hf)
    exact ⟨hdurable, fun hstrict => h.frozen hstrict f hf (hcold hstrict)⟩
  once hstrict := (hs.once hstrict).sublist (h.fetches.map Fetch.object)
  riding hship := hs.riding (h.ship ▸ hship)
  waiting txn htxn w hw := by
    rcases h.waiting txn htxn with hold | hnone
    · exact hs.waiting txn hold w hw
    · exact hnone w hw
  told sent hsent := by
    rcases h.told sent hsent with hold | htold
    · exact hs.told sent hold
    · exact htold

/-- Only answers are sent and polls dropped. -/
structure Talks (s s' : State ι Img Sql Row) : Prop where
  live : s'.live = s.live
  logSeq : s'.logSeq = s.logSeq
  boats : s'.boats = s.boats
  ship : s'.ship = s.ship
  fetches : s'.fetches = s.fetches
  committed : s'.committed = s.committed
  promoted : s'.promoted = s.promoted
  records : s'.records = s.records
  torn : s'.torn = s.torn

section

omit [LinearOrder ι]

theorem Talks.refl (s : State ι Img Sql Row) : Talks s s :=
  ⟨rfl, rfl, rfl, rfl, rfl, rfl, rfl, rfl, rfl⟩

theorem Talks.trans (h : Talks s s') (h' : Talks s' s'') : Talks s s'' where
  live := h'.live.trans h.live
  logSeq := h'.logSeq.trans h.logSeq
  boats := h'.boats.trans h.boats
  ship := h'.ship.trans h.ship
  fetches := h'.fetches.trans h.fetches
  committed := h'.committed.trans h.committed
  promoted := h'.promoted.trans h.promoted
  records := h'.records.trans h.records
  torn := h'.torn.trans h.torn

theorem Talks.tame (h : Talks s s')
    (htold : ∀ sent ∈ s'.outbox, sent ∈ s.outbox ∨ Told S sent) : Tame S s s' where
  ship := h.ship
  inflight := by rw [h.boats]
  fetches := by rw [h.fetches]
  live hlive := by
    rw [h.live] at hlive
    rw [h.boats]
    exact .inl ⟨_, hlive, le_refl _, fun hdirty => ⟨rfl, hdirty⟩⟩
  afloat _ _ _ hsome := by rwa [h.live]
  frozen _ _ _ hnone := by rwa [h.live]
  waiting txn htxn := .inl (h.boats ▸ htxn)
  told := htold

theorem talks_send (asker : Asker ι Sql) (answer : Except ApiError (TxnResponse Row)) :
    Talks s (s.send asker answer) := ⟨rfl, rfl, rfl, rfl, rfl, rfl, rfl, rfl, rfl⟩

theorem talks_sendAll (waiters : List (Waiter ι Sql Row)) : Talks s (s.sendAll waiters) :=
  ⟨rfl, rfl, rfl, rfl, rfl, rfl, rfl, rfl, rfl⟩

end

theorem talks_failPolls (objects : List ι) (reason : String) :
    Talks s (s.failPolls objects reason) := ⟨rfl, rfl, rfl, rfl, rfl, rfl, rfl, rfl, rfl⟩

theorem talks_takeFiredPolls (o : ι) (pass : Bool) :
    Talks s (s.takeFiredPolls site e o pass).2 := by
  unfold State.takeFiredPolls
  split
  · exact Talks.refl s
  · exact ⟨rfl, rfl, rfl, rfl, rfl, rfl, rfl, rfl, rfl⟩

theorem talks_firePolls (pass : Bool) (objects : List ι) :
    Talks s (s.firePolls site e pass objects) := by
  unfold State.firePolls
  induction objects generalizing s with
  | nil => exact Talks.refl s
  | cons o objects ih =>
    exact (talks_takeFiredPolls o pass).trans ((talks_sendAll _).trans ih)

theorem talks_finishClosing : Talks s s.finishClosing := by
  unfold State.finishClosing
  split
  · exact ⟨rfl, rfl, rfl, rfl, rfl, rfl, rfl, rfl, rfl⟩
  · exact Talks.refl s

omit [LinearOrder ι] in
/-- An error tells a poll nothing. -/
theorem told_error {asker : Asker ι Sql} {error : ApiError} :
    Told S ⟨asker, .error error⟩ := by
  intro o p answer _ _ hok
  cases hok

omit [LinearOrder ι] in
theorem told_of_poll_none {asker : Asker ι Sql} {answer : Except ApiError (TxnResponse Row)}
    (h : asker.poll = none) : Told S ⟨asker, answer⟩ := by
  intro o p _ hpoll
  rw [h] at hpoll
  cases hpoll

/-- The poll's query gives this result on the image, and that makes it ready. -/
structure Fires (site : Site ι Img Sql Row) (image : Img) (p : PendingPoll Sql)
    (results : List (OpResult Row)) : Prop where
  ran : ∃ result, site.query image p.sql = .ok result ∧ results = [result]
  ready : pollReady p.baseline results (site.pollHash results) = true

omit [LinearOrder ι] in
theorem judge_fired {image : Img} {pass : Bool} {p : PendingPoll Sql}
    {results : List (OpResult Row)} {hash : String}
    (h : State.judge site e image pass p = .fired results hash) :
    p.durable = pass ∧ Fires site image p results ∧ hash = site.pollHash results := by
  unfold State.judge at h
  split at h
  · cases h
  split at h
  · cases h
  · rename_i hpass
    split at h
    · rename_i result hrun
      dsimp only at h
      split at h
      · rename_i hready
        cases h
        exact ⟨not_not.mp hpass, ⟨⟨result, hrun, rfl⟩, hready⟩, rfl⟩
      · cases h
    · cases h

/-- Whoever fires is a poll of the pass on the live object. -/
theorem mem_takeFiredPolls {o : ι} {pass : Bool} {w : Waiter ι Sql Row}
    (h : w ∈ (s.takeFiredPolls site e o pass).1) :
    ∃ image p, s.live o = some image ∧ w.1 = State.pollAsker o p ∧ (o, p) ∈ s.polls ∧
      p.durable = pass ∧ Fires site image p w.2.results := by
  unfold State.takeFiredPolls at h
  split at h
  · cases h
  · rename_i image hlive
    obtain ⟨⟨⟨o', p⟩, i⟩, hmem, hsome⟩ := List.mem_filterMap.mp h
    have hpoll : (o', p) ∈ s.pollsOn [o] := by
      obtain ⟨-, -, heq⟩ := List.mem_zipIdx hmem
      rw [heq]
      exact List.getElem_mem _
    obtain ⟨hpolls, hon⟩ := List.mem_filter.mp hpoll
    have ho : o' = o := by simpa using hon
    subst ho
    dsimp only at hsome
    split at hsome
    · rename_i results hash hjudge
      cases hsome
      obtain ⟨hpass, hfires, -⟩ := judge_fired hjudge
      exact ⟨image, p, hlive, rfl, hpolls, hpass, hfires⟩
    · cases hsome

/-- A pass sends errors besides. -/
theorem outbox_takeFiredPolls {o : ι} {pass : Bool} {sent : Sent ι Sql Row}
    (h : sent ∈ (s.takeFiredPolls site e o pass).2.outbox) :
    sent ∈ s.outbox ∨ ∃ asker error, sent = ⟨asker, .error error⟩ := by
  unfold State.takeFiredPolls at h
  split at h
  · exact .inl h
  · rcases List.mem_append.mp h with hold | hbroken
    · exact .inl hold
    · obtain ⟨q, -, hsome⟩ := List.mem_filterMap.mp hbroken
      split at hsome
      · cases hsome
        exact .inr ⟨_, _, rfl⟩
      · cases hsome

/-- What a pass tells a poll is computed on its live object. -/
theorem outbox_firePolls {pass : Bool} {objects : List ι} {sent : Sent ι Sql Row}
    (h : sent ∈ (s.firePolls site e pass objects).outbox) :
    sent ∈ s.outbox ∨ (∃ asker error, sent = ⟨asker, .error error⟩) ∨
      ∃ o ∈ objects, ∃ image p answer, s.live o = some image ∧ p.durable = pass ∧
        Fires site image p answer.results ∧ sent = ⟨State.pollAsker o p, .ok answer⟩ := by
  unfold State.firePolls at h
  induction objects generalizing s with
  | nil => exact .inl h
  | cons o objects ih =>
    rcases ih h with hold | herror | ⟨o', ho', image, p, answer, hlive, hrest⟩
    · rcases List.mem_append.mp hold with hold | hfired
      · rcases outbox_takeFiredPolls hold with hold | herror
        · exact .inl hold
        · exact .inr (.inl herror)
      · obtain ⟨w, hw, rfl⟩ := List.mem_map.mp hfired
        obtain ⟨image, p, hlive, hasker, -, hpass, hfires⟩ := mem_takeFiredPolls hw
        refine .inr (.inr ⟨o, List.mem_cons_self, image, p, w.2, hlive, hpass, hfires, ?_⟩)
        rw [hasker]
    · exact .inr (.inl herror)
    · have htalks : Talks s ((s.takeFiredPolls site e o pass).2.sendAll
          (s.takeFiredPolls site e o pass).1) :=
        (talks_takeFiredPolls o pass).trans (talks_sendAll _)
      have hlive' : s.live o' = some image := by
        rw [← htalks.live]
        exact hlive
      exact .inr (.inr ⟨o', List.mem_cons_of_mem _ ho', image, p, answer, hlive', hrest⟩)

/-- The polls of a pass over clean objects are told what is durable. -/
theorem tame_firePolls (hs : Grounded S s) {pass : Bool} {objects : List ι}
    (hclean : pass = true → ∀ o ∈ objects, s.boats.unshipped o = false) :
    Tame S s (s.firePolls site e pass objects) := by
  refine (talks_firePolls pass objects).tame ?_
  intro sent hsent
  rcases outbox_firePolls hsent with hold | ⟨asker, error, rfl⟩ | ⟨o, ho, image, p, answer, h⟩
  · exact .inl hold
  · exact .inr told_error
  · obtain ⟨hlive, hpass, hfires, rfl⟩ := h
    refine .inr ?_
    intro o' p' answer' hpoll hdurable hok
    cases hpoll
    cases hok
    obtain ⟨result, hran, hresults⟩ := hfires.ran
    rw [hpass] at hdurable
    have hgood := hs.clean hlive (hclean hdurable o ho)
    exact ⟨image, result, S.durable_committed hgood, hran, hresults⟩

end Fafo.Polls
