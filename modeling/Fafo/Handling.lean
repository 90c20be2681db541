import Fafo.Grounded

/-! What each message leaves of the invariant: reverts, re-folds, transactions and boats. -/
namespace Fafo.Polls

variable {ι Img Sql Row : Type} [LinearOrder ι] {site : Site ι Img Sql Row} {e : Env ι}
variable {s s' : State ι Img Sql Row} {S : Standard site} {t : Txn ι Sql}

theorem torn_revertClosure {seed : List ι} (h : (s.revertClosure seed).torn = false) :
    s.torn = false ∧ ∀ o ∈ s.boats.closure seed, ¬ s.Aboard o := by
  have h : (s.torn || (s.boats.reverted seed).inflight.any fun boat =>
      (s.boats.closure seed).any fun o => decide (o ∈ boat)) = false := h
  rw [Boats.reverted_inflight] at h
  obtain ⟨htorn, hany⟩ := Bool.or_eq_false_iff.mp h
  refine ⟨htorn, ?_⟩
  rintro o ho ⟨boat, hboat, hin⟩
  rw [hboat, Option.any_some, List.any_eq_false] at hany
  exact hany o ho (decide_eq_true hin)

theorem live_revertClosure {seed : List ι} {o : ι} {image : Img}
    (h : (s.revertClosure seed).live o = some image) :
    o ∉ s.boats.closure seed ∧ s.live o = some image := by
  have hs := reverted_revertClosure s seed
  by_cases ho : o ∈ s.boats.closure seed
  · rw [(hs.cold o ho).1] at h
    cases h
  · rw [(hs.elsewhere o ho).1] at h
    exact ⟨ho, h⟩

theorem dirty_revertClosure {seed : List ι} {o : ι} (ho : o ∉ s.boats.closure seed) :
    o ∈ (s.revertClosure seed).boats.dirty ↔ o ∈ s.boats.dirty := by
  have hs := (reverted_revertClosure s seed).elsewhere o ho
  rw [← AList.lookup_isSome, ← AList.lookup_isSome, hs.2.2]

theorem told_revertClosure {seed : List ι} {sent : Sent ι Sql Row}
    (h : sent ∈ (s.revertClosure seed).outbox) : sent ∈ s.outbox ∨ Told S sent := by
  rw [(reverted_revertClosure s seed).outbox] at h
  rcases List.mem_append.mp h with h | h
  · rcases List.mem_append.mp h with h | h
    · exact .inl h
    · obtain ⟨txn, -, hsome⟩ := List.mem_filterMap.mp h
      obtain ⟨w, -, rfl⟩ := Option.map_eq_some_iff.mp hsome
      exact .inr told_error
  · obtain ⟨q, -, rfl⟩ := List.mem_map.mp h
    exact .inr told_error

theorem tame_revertClosure {seed : List ι}
    (ht : S.strict → (s.revertClosure seed).torn = false) : Tame S s (s.revertClosure seed) where
  ship := rfl
  inflight := (reverted_revertClosure s seed).inflight
  fetches := List.Sublist.refl _
  live hlive := by
    obtain ⟨hout, hlive⟩ := live_revertClosure hlive
    refine .inl ⟨_, hlive, le_refl _, fun hdirty => ⟨rfl, ?_⟩⟩
    exact fun hwas => hdirty ((dirty_revertClosure hout).mpr hwas)
  afloat hstrict o haboard hsome := by
    have hout : o ∉ s.boats.closure seed :=
      fun hin => (torn_revertClosure (ht hstrict)).2 o hin haboard
    rwa [((reverted_revertClosure s seed).elsewhere o hout).1]
  frozen _ f _ hnone := by
    by_cases hin : f.object ∈ s.boats.closure seed
    · exact ((reverted_revertClosure s seed).cold _ hin).1
    · rwa [((reverted_revertClosure s seed).elsewhere _ hin).1]
  waiting txn htxn := by
    rw [(reverted_revertClosure s seed).retained] at htxn
    exact .inl (List.mem_filter.mp htxn).1
  told _ := told_revertClosure

theorem torn_revertOrphaned (h : (s.revertOrphaned e).torn = false) : s.torn = false := by
  unfold State.revertOrphaned at h
  dsimp only at h
  split at h
  · exact h
  · exact (torn_revertClosure h).1

omit [LinearOrder ι] in
theorem tame_refl (s : State ι Img Sql Row) : Tame S s s :=
  (Talks.refl s).tame fun _ h => .inl h

theorem tame_revertOrphaned (ht : S.strict → (s.revertOrphaned e).torn = false) :
    Tame S s (s.revertOrphaned e) := by
  unfold State.revertOrphaned at ht ⊢
  dsimp only at ht ⊢
  split_ifs at ht ⊢
  · exact tame_refl s
  · exact tame_revertClosure ht

theorem refreshIfStale_cases (site : Site ι Img Sql Row) (e : Env ι) (s : State ι Img Sql Row)
    (o : ι) : s.refreshIfStale site e o = (false, s) ∨
      ∃ missed, e.folds o = some missed ∧ s.boats.unshipped o = false ∧
        (s.logSeq o).getD 0 < s.readSeq o missed ∧
        s.refreshIfStale site e o = (true, s.refold site o missed) := by
  unfold State.refreshIfStale
  split_ifs with hun
  · exact .inl rfl
  · cases hread : e.folds o with
    | none => exact .inl rfl
    | some missed =>
      dsimp only
      split_ifs with hcurrent
      · exact .inl rfl
      · exact .inr ⟨missed, rfl, Bool.eq_false_iff.mpr hun, Nat.lt_of_not_le hcurrent, rfl⟩

theorem refoldCleanBase_cases (site : Site ι Img Sql Row) (e : Env ι) (s : State ι Img Sql Row)
    (o : ι) : s.refoldCleanBase site e o = s ∨
      ∃ missed, e.folds o = some missed ∧ s.boats.unshipped o = false ∧ (s.live o).isSome ∧
        s.refoldCleanBase site e o = s.refold site o missed := by
  unfold State.refoldCleanBase
  split_ifs with hskip
  · exact .inl rfl
  · cases hread : e.folds o with
    | none => exact .inl rfl
    | some missed =>
      have hskip : (site.system o = false ∧ s.boats.unshipped o = false) ∧
          (s.live o).isSome = true := by simpa [Option.isSome_iff_ne_none] using hskip
      exact .inr ⟨missed, rfl, hskip.1.2, hskip.2, rfl⟩

theorem recount_cases (site : Site ι Img Sql Row) (e : Env ι) (s : State ι Img Sql Row) (o : ι) :
    s.recount site e o = s ∨
      ∃ uncounted missed, e.folds o = some uncounted ∧ e.refolds o = some missed ∧
        (s.logSeq o).getD 0 < s.readSeq o uncounted ∧
        s.recount site e o = s.refold site o missed := by
  unfold State.recount
  split
  · rename_i uncounted missed hcount hread
    split_ifs with hcurrent
    · exact .inl rfl
    · exact .inr ⟨uncounted, missed, hcount, hread, Nat.lt_of_not_le hcurrent, rfl⟩
  · exact .inl rfl

/-- What the folds of a step come to is durable. -/
def FoldsDurable (S : Standard site) (e : Env ι) (s : State ι Img Sql Row) : Prop :=
  site.logPrimary = true → ∀ o missed, e.folds o = some missed ∨ e.refolds o = some missed →
    S.durable o (s.fold site o missed)

omit [LinearOrder ι] in
theorem FoldsDurable.again (h : FoldsDurable S e s) : FoldsDurable S e.again s :=
  fun hlog o missed hread => h hlog o missed (.inr (or_self_iff.mp hread))

/-- An object takes a fold in. -/
theorem tame_refold {o : ι} {missed : Nat} (hclean : s.boats.unshipped o = false)
    (hfold : S.durable o (s.fold site o missed)) (hout : S.strict → ∀ f ∈ s.fetches,
      f.object = o → s.live o ≠ none) : Tame S s (s.refold site o missed) where
  ship := rfl
  inflight := rfl
  fetches := List.Sublist.refl _
  live {o' image} hlive := by
    by_cases ho : o' = o
    · subst ho
      have himage : s.fold site o' missed = image := by
        have hlive : Function.update s.live o' (some (s.fold site o' missed)) o' = some image :=
          hlive
        rw [Function.update_self] at hlive
        exact Option.some.inj hlive
      subst himage
      exact .inr ⟨hfold, fun _ => (unshipped_eq_false.mp hclean).2⟩
    · have hlive : Function.update s.live o (some (s.fold site o missed)) o' = some image := hlive
      rw [Function.update_of_ne ho] at hlive
      exact .inl ⟨_, hlive, le_refl _, fun hdirty => ⟨rfl, hdirty⟩⟩
  afloat _ o' haboard hsome := by
    have hne : o' ≠ o := by
      rintro rfl
      exact (unshipped_eq_false.mp hclean).2 haboard
    change (Function.update s.live o (some (s.fold site o missed)) o').isSome
    rwa [Function.update_of_ne hne]
  frozen hstrict f hf hnone := by
    have hne : f.object ≠ o := by
      intro heq
      exact hout hstrict f hf heq (heq ▸ hnone)
    change Function.update s.live o (some (s.fold site o missed)) f.object = none
    rwa [Function.update_of_ne hne]
  waiting _ htxn := .inl htxn
  told _ hsent := .inl hsent

omit [LinearOrder ι] in
theorem readSeq_le (o : ι) (missed : Nat) : s.readSeq o missed ≤ s.committedSeq o :=
  Nat.sub_le _ _

theorem tame_refreshIfStale {o : ι} (hlog : site.logPrimary = true) (hfold : FoldsDurable S e s)
    (hout : S.strict → ∀ f ∈ s.fetches, f.object = o → s.live o = none →
      s.committedSeq o ≤ (s.logSeq o).getD 0) :
    Tame S s (s.refreshIfStale site e o).2 := by
  obtain heq | ⟨missed, hread, hclean, hbehind, heq⟩ := refreshIfStale_cases site e s o
  · rw [heq]
    exact tame_refl s
  · rw [heq]
    refine tame_refold hclean (hfold hlog o missed (.inl hread)) ?_
    intro hstrict f hf ho hnone
    have hcurrent := hout hstrict f hf ho hnone
    have hle := readSeq_le (s := s) o missed
    omega

theorem tame_refoldCleanBase {o : ι} (hlog : site.logPrimary = true)
    (hfold : FoldsDurable S e s) : Tame S s (s.refoldCleanBase site e o) := by
  obtain heq | ⟨missed, hread, hclean, hlive, heq⟩ := refoldCleanBase_cases site e s o
  · rw [heq]
    exact tame_refl s
  · rw [heq]
    refine tame_refold hclean (hfold hlog o missed (.inl hread)) ?_
    intro _ _ _ _ hnone
    rw [hnone] at hlive
    cases hlive

theorem tame_recount {o : ι} (hlog : site.logPrimary = true) (hfold : FoldsDurable S e s)
    (hclean : s.boats.unshipped o = false) (hout : S.strict → s.live o = none →
      s.committedSeq o ≤ (s.logSeq o).getD 0) :
    Tame S s (s.recount site e o) := by
  obtain heq | ⟨uncounted, missed, -, hread, hbehind, heq⟩ := recount_cases site e s o
  · rw [heq]
    exact tame_refl s
  · rw [heq]
    refine tame_refold hclean (hfold hlog o missed (.inr hread)) ?_
    intro hstrict _ _ _ hnone
    have hcurrent := hout hstrict hnone
    have hle := readSeq_le (s := s) o uncounted
    omega

/-- The store, the boats and the fetches: what a re-fold looks at but for the objects themselves. -/
structure SameStore (s s' : State ι Img Sql Row) : Prop where
  boats : s'.boats = s.boats
  ship : s'.ship = s.ship
  fetches : s'.fetches = s.fetches
  polls : s'.polls = s.polls
  committed : s'.committed = s.committed
  promoted : s'.promoted = s.promoted
  records : s'.records = s.records
  torn : s'.torn = s.torn
  outbox : s'.outbox = s.outbox

omit [LinearOrder ι] in
theorem SameStore.refl (s : State ι Img Sql Row) : SameStore s s :=
  ⟨rfl, rfl, rfl, rfl, rfl, rfl, rfl, rfl, rfl⟩

omit [LinearOrder ι] in
theorem SameStore.trans {s'' : State ι Img Sql Row} (h : SameStore s s') (h' : SameStore s' s'') :
    SameStore s s'' where
  boats := h'.boats.trans h.boats
  ship := h'.ship.trans h.ship
  fetches := h'.fetches.trans h.fetches
  polls := h'.polls.trans h.polls
  committed := h'.committed.trans h.committed
  promoted := h'.promoted.trans h.promoted
  records := h'.records.trans h.records
  torn := h'.torn.trans h.torn
  outbox := h'.outbox.trans h.outbox

theorem same_refold (o : ι) (missed : Nat) : SameStore s (s.refold site o missed) :=
  ⟨rfl, rfl, rfl, rfl, rfl, rfl, rfl, rfl, rfl⟩

theorem same_refreshIfStale (o : ι) : SameStore s (s.refreshIfStale site e o).2 := by
  obtain heq | ⟨missed, -, -, -, heq⟩ := refreshIfStale_cases site e s o
  · rw [heq]
    exact SameStore.refl s
  · rw [heq]
    exact same_refold o missed

theorem same_refoldCleanBase (o : ι) : SameStore s (s.refoldCleanBase site e o) := by
  obtain heq | ⟨missed, -, -, -, heq⟩ := refoldCleanBase_cases site e s o
  · rw [heq]
    exact SameStore.refl s
  · rw [heq]
    exact same_refold o missed

theorem same_recount (o : ι) : SameStore s (s.recount site e o) := by
  obtain heq | ⟨uncounted, missed, -, -, -, heq⟩ := recount_cases site e s o
  · rw [heq]
    exact SameStore.refl s
  · rw [heq]
    exact same_refold o missed

omit [LinearOrder ι] in
theorem SameStore.fold_eq (h : SameStore s s') (o : ι) (missed : Nat) :
    s'.fold site o missed = s.fold site o missed := by
  unfold State.fold State.readSeq State.committedSeq
  rw [h.committed]

omit [LinearOrder ι] in
theorem FoldsDurable.same (hfold : FoldsDurable S e s) (h : SameStore s s') :
    FoldsDurable S e s' := by
  intro hlog o missed hread
  rw [h.fold_eq]
  exact hfold hlog o missed hread

theorem same_catchUp : SameStore s (s.catchUp site e t) := by
  unfold State.catchUp
  split
  · generalize t.participants = objects
    induction objects generalizing s with
    | nil => exact SameStore.refl s
    | cons o objects ih =>
      rw [List.foldl_cons]
      refine SameStore.trans ?_ ih
      split
      · exact same_refreshIfStale o
      · exact same_refoldCleanBase o
  · exact SameStore.refl s

theorem Grounded.catchUp (hs : Grounded S s) (hfold : FoldsDurable S e s)
    (hout : S.strict → site.logPrimary = true → ∀ f ∈ s.fetches, f.object ∉ t.participants) :
    Grounded S (s.catchUp site e t) := by
  unfold State.catchUp
  split
  · rename_i hlog
    have hall : ∀ objects ⊆ t.participants, ∀ s' : State ι Img Sql Row, SameStore s s' →
        Grounded S s' → Grounded S (objects.foldl (fun s o =>
          if t.readOnly then (s.refreshIfStale site e o).2
            else s.refoldCleanBase site e o) s') := by
      intro objects hsub
      induction objects with
      | nil => exact fun s' _ hs' => hs'
      | cons o objects ih =>
        intro s' hsame hs'
        have hfold' : FoldsDurable S e s' := hfold.same hsame
        rw [List.foldl_cons]
        refine ih (List.subset_of_cons_subset hsub) _ (hsame.trans ?_) ?_
        · split
          · exact same_refreshIfStale o
          · exact same_refoldCleanBase o
        · split
          · refine hs'.tame (tame_refreshIfStale hlog hfold' ?_)
            intro hstrict f hf heq
            rw [hsame.fetches] at hf
            exact absurd (heq ▸ hsub List.mem_cons_self) (hout hstrict hlog f hf)
          · exact hs'.tame (tame_refoldCleanBase hlog hfold')
    exact hall t.participants (List.Subset.refl _) s (SameStore.refl s) hs
  · exact hs

/-- Statements leave an image alone or raise its change counter. -/
theorem writeOps_later {ops : List (Op ι Sql)} {images images' : ι → Option Img}
    {results : List (OpResult Row)} (h : State.writeOps site images ops = .ok (results, images'))
    (o : ι) : images' o = images o ∨ ∃ old new, images o = some old ∧ images' o = some new ∧
      site.changeCounter old < site.changeCounter new := by
  induction ops generalizing images results with
  | nil =>
    cases h
    exact .inl rfl
  | cons op ops ih =>
    unfold State.writeOps at h
    split at h
    · cases h
    · rename_i result image hrun
      split at h
      · cases h
      · rename_i results' images'' hrest
        cases h
        have hlater := ih hrest
        by_cases ho : o = op.object
        · subst ho
          rw [Function.update_self] at hlater
          cases hold : images op.object with
          | none =>
            rw [hold] at hrun
            cases hrun
          | some old =>
            rw [hold] at hrun
            have hwrites := site.exec_writes hrun
            rcases hlater with hsame | ⟨mid, new, hmid, hnew, hlt⟩
            · rcases hwrites with rfl | hlt
              · exact .inl hsame
              · exact .inr ⟨old, image, rfl, hsame, hlt⟩
            · cases hmid
              rcases hwrites with rfl | hlt'
              · exact .inr ⟨_, new, rfl, hnew, hlt⟩
              · exact .inr ⟨old, new, rfl, hnew, hlt'.trans hlt⟩
        · rwa [Function.update_of_ne ho] at hlater

/-- The participants that a transaction has changed. -/
def changedBy (site : Site ι Img Sql Row) (e : Env ι) (t : Txn ι Sql)
    (live images : ι → Option Img) : List ι :=
  t.participants.filter fun o =>
    (images o).map site.changeCounter ≠ (live o).map site.changeCounter || e.headerLost o

/-- What applying a transaction comes to. -/
inductive Applied (site : Site ι Img Sql Row) (e : Env ι) (t : Txn ι Sql)
    (s : State ι Img Sql Row) :
    Except ApiError (List (OpResult Row) × List ι) × State ι Img Sql Row → Prop where
  | refused (error : ApiError) : Applied site e t s (.error error, s)
  | read {results : List (OpResult Row)} (hread : t.readOnly = true)
      (hresults : s.readOps site t.ops = .ok results) : Applied site e t s (.ok (results, []), s)
  | half (error : ApiError) (seed : List ι) :
      Applied site e t s (.error error, s.revertClosure seed)
  | wrote {results : List (OpResult Row)} {images : ι → Option Img} (hread : t.readOnly = false)
      (hwrote : State.writeOps site s.live t.ops = .ok (results, images)) :
      Applied site e t s (.ok (results, changedBy site e t s.live images),
        { s with live := fun o => if o ∈ t.participants then images o else s.live o })

theorem applied_apply : Applied site e t s (s.apply site e t) := by
  unfold State.apply
  split
  · exact .refused _
  · split
    · rename_i hread
      split
      · exact .refused _
      · rename_i results hresults
        exact .read hread hresults
    · rename_i hread
      split
      · exact .refused _
      · rename_i results images hwrote
        split
        · exact .half _ _
        · exact .wrote (by simpa using hread) hwrote

/-- A transaction that wrote keeps the invariant as soon as what it changed is dirty. -/
theorem tame_wrote {results : List (OpResult Row)} {images : ι → Option Img}
    (hwrote : State.writeOps site s.live t.ops = .ok (results, images))
    (hlive : s'.live = fun o => if o ∈ t.participants then images o else s.live o)
    (hdirty : ∀ o, o ∉ s'.boats.dirty → o ∉ s.boats.dirty ∧ o ∉ changedBy site e t s.live images)
    (hship : s'.ship = s.ship) (hinflight : s'.boats.inflight = s.boats.inflight)
    (hfetches : s'.fetches = s.fetches)
    (hwaiting : ∀ txn ∈ s'.boats.pending,
      txn ∈ s.boats.pending ∨ ∀ w, txn.waiter = some w → w.1.poll = none)
    (htold : ∀ sent ∈ s'.outbox, sent ∈ s.outbox ∨ Told S sent) : Tame S s s' where
  ship := hship
  inflight := hinflight
  fetches := by rw [hfetches]
  live {o image} himage := by
    rw [hlive] at himage
    dsimp only at himage
    split_ifs at himage with hin
    · rcases writeOps_later hwrote o with hsame | ⟨old, new, hold, hnew, hlt⟩
      · rw [hsame] at himage
        exact .inl ⟨image, himage, le_refl _, fun hclean => ⟨rfl, (hdirty o hclean).1⟩⟩
      · rw [himage] at hnew
        cases hnew
        refine .inl ⟨old, hold, hlt.le, fun hclean => absurd ?_ (hdirty o hclean).2⟩
        refine List.mem_filter.mpr ⟨hin, ?_⟩
        have hne : (images o).map site.changeCounter ≠ (s.live o).map site.changeCounter := by
          rw [himage, hold]
          simp only [Option.map_some, ne_eq, Option.some.injEq]
          omega
        simp [hne]
    · exact .inl ⟨image, himage, le_refl _, fun hclean => ⟨rfl, (hdirty o hclean).1⟩⟩
  afloat _ o _ hsome := by
    rw [hlive]
    dsimp only
    split_ifs
    · rcases writeOps_later hwrote o with hsame | ⟨old, new, -, hnew, -⟩
      · rwa [hsame]
      · rw [hnew]
        rfl
    · exact hsome
  frozen _ f _ hnone := by
    rw [hlive]
    dsimp only
    split_ifs
    · rcases writeOps_later hwrote f.object with hsame | ⟨old, new, hold, -, -⟩
      · rwa [hsame]
      · rw [hnone] at hold
        cases hold
    · exact hnone
  waiting := hwaiting
  told := htold

theorem outbox_acknowledge {results : List (OpResult Row)} {changed : List ι}
    {sent : Sent ι Sql Row} (h : sent ∈ (s.acknowledge site e t results changed).outbox) :
    sent ∈ s.outbox ∨ Told S sent := by
  unfold State.acknowledge at h
  dsimp only at h
  split_ifs at h
  · rcases List.mem_append.mp h with hold | hnew
    · exact .inl hold
    · rw [List.mem_singleton.mp hnew]
      exact .inr (told_of_poll_none rfl)
  · exact .inl h

/-- What was changed waits for a boat, and nobody but its transaction's client does. -/
theorem boats_acknowledge (site : Site ι Img Sql Row) (e : Env ι) (t : Txn ι Sql)
    (results : List (OpResult Row)) (changed : List ι) (s : State ι Img Sql Row) :
    ∃ txn : AppliedTxn ι (Waiter ι Sql Row), txn.participants = changed ∧
      (∀ w, txn.waiter = some w → w.1.poll = none) ∧
      (s.acknowledge site e t results changed).boats = s.boats.applied e.bytes txn := by
  unfold State.acknowledge
  dsimp only
  split_ifs
  · exact ⟨_, rfl, fun w hw => (by cases hw), rfl⟩
  · refine ⟨_, rfl, fun w hw => ?_, rfl⟩
    cases hw
    rfl

theorem live_acknowledge (site : Site ι Img Sql Row) (e : Env ι) (t : Txn ι Sql)
    (results : List (OpResult Row)) (changed : List ι) (s : State ι Img Sql Row) :
    (s.acknowledge site e t results changed).live = s.live ∧
      (s.acknowledge site e t results changed).ship = s.ship ∧
      (s.acknowledge site e t results changed).fetches = s.fetches ∧
      (s.acknowledge site e t results changed).torn = s.torn := by
  unfold State.acknowledge
  dsimp only
  split_ifs
  · exact ⟨rfl, rfl, rfl, rfl⟩
  · exact ⟨rfl, rfl, rfl, rfl⟩

omit [LinearOrder ι] in
theorem readOps_single {op : Op ι Sql} {results : List (OpResult Row)}
    (h : s.readOps site [op] = .ok results) :
    ∃ image result, s.live op.object = some image ∧ site.query image op.sql = .ok result ∧
      results = [result] := by
  unfold State.readOps at h
  split_ifs at h
  split at h
  · cases h
  · rename_i result hrun
    unfold State.readOps at h
    cases h
    cases hlive : s.live op.object with
    | none =>
      rw [hlive] at hrun
      cases hrun
    | some image =>
      rw [hlive] at hrun
      exact ⟨image, result, rfl, hrun, rfl⟩

/-- A refresh re-folds the object, or leaves everything as it is; what it answers fires on the fold.
-/
theorem refreshStalePoll_cases (site : Site ι Img Sql Row) (e : Env ι) (s : State ι Img Sql Row)
    (o : ι) (po : PollOpts) (op : Op ι Sql) :
    (s.refreshStalePoll site e o po op).2 = (s.refreshIfStale site e o).2 ∧
      ∀ answer, (s.refreshStalePoll site e o po op).1 = some answer →
        ∃ image, (s.refreshIfStale site e o).2.live o = some image ∧
          (s.refreshIfStale site e o).1 = true ∧
          ∃ result, site.query image op.sql = .ok result ∧ answer.results = [result] := by
  unfold State.refreshStalePoll
  split
  · rename_i s' heq
    rw [heq]
    refine ⟨rfl, fun answer h => ?_⟩
    cases h
  · rename_i s' heq
    rw [heq]
    split
    · rename_i result hrun
      dsimp only
      split
      · refine ⟨rfl, fun answer h => ?_⟩
        cases h
        obtain ⟨image, hlive, hquery⟩ := Option.map_eq_some_iff.mp hrun
        exact ⟨image, hlive, rfl, result, hquery, rfl⟩
      · refine ⟨rfl, fun answer h => ?_⟩
        cases h
    · refine ⟨rfl, fun answer h => ?_⟩
      cases h

theorem refreshIfStale_true {o : ι} (h : (s.refreshIfStale site e o).1 = true) :
    ∃ missed, e.folds o = some missed ∧
      (s.refreshIfStale site e o).2.live o = some (s.fold site o missed) := by
  obtain heq | ⟨missed, hread, -, -, heq⟩ := refreshIfStale_cases site e s o
  · rw [heq] at h
    cases h
  · rw [heq]
    exact ⟨missed, hread, Function.update_self o _ s.live⟩

/-- A poll parks, or is answered with what it found. -/
inductive Registered (site : Site ι Img Sql Row) (e : Env ι) (t : Txn ι Sql) (po : PollOpts) (o : ι)
    (op : Op ι Sql) (results : List (OpResult Row)) (s : State ι Img Sql Row) :
    State ι Img Sql Row → Prop where
  | answered (hclean : po.durable = true → s.boats.unshipped o = false)
      (hready : pollReady po.baseline results (site.pollHash results) = true) :
      Registered site e t po o op results s
        (s.send (State.pollAsker o ⟨po.conn, po.frame, op.sql, po.durable, po.baseline, t.resp⟩)
          (.ok ⟨.txn t.txn, results, some (site.pollHash results)⟩))
  | refreshed {answer : TxnResponse Row} {image : Img} {result : OpResult Row}
      (hlog : site.logPrimary = true) (hdurable : po.durable = true)
      (htrue : (s.refreshIfStale site e.again o).1 = true)
      (hlive : (s.refreshIfStale site e.again o).2.live o = some image)
      (hquery : site.query image op.sql = .ok result) (hresults : answer.results = [result]) :
      Registered site e t po o op results s
        ((s.refreshIfStale site e.again o).2.send
          (State.pollAsker o ⟨po.conn, po.frame, op.sql, po.durable, po.baseline, t.resp⟩)
          (.ok answer))
  | parked {s' : State ι Img Sql Row}
      (hfresh : s' = s ∨ site.logPrimary = true ∧ po.durable = true ∧
        s' = (s.refreshIfStale site e.again o).2)
      (hquiet : po.durable = false →
        pollReady po.baseline results (site.pollHash results) = false) :
      Registered site e t po o op results s
        { s' with polls := s'.polls ++
          [(o, ⟨po.conn, po.frame, op.sql, po.durable, po.baseline, t.resp⟩)] }

theorem registered_register (po : PollOpts) (o : ι) (op : Op ι Sql)
    (results : List (OpResult Row)) :
    Registered site e t po o op results s (s.register site e t po o op results) := by
  unfold State.register
  dsimp only
  split_ifs with hnow hrefresh
  · obtain ⟨hclean, hready⟩ := Bool.and_eq_true_iff.mp hnow
    refine .answered (fun hdurable => ?_) hready
    simpa [hdurable] using hclean
  · have hrefresh' : (po.durable = true ∧ site.logPrimary = true) ∧
        s.boats.unshipped o = false := by simpa using hrefresh
    have hcases := refreshStalePoll_cases site e.again s o po op
    generalize s.refreshStalePoll site e.again o po op = refreshed at hcases ⊢
    obtain ⟨hstate, hanswer⟩ := hcases
    split
    · rename_i answer s'
      obtain ⟨image, hlive, htrue, result, hquery, hresults⟩ := hanswer answer rfl
      dsimp only at hstate
      rw [hstate]
      exact .refreshed hrefresh'.1.2 hrefresh'.1.1 htrue hlive hquery hresults
    · rename_i s'
      refine .parked (.inr ⟨hrefresh'.1.2, hrefresh'.1.1, hstate⟩) fun hnot => ?_
      rw [hrefresh'.1.1] at hnot
      cases hnot
  · refine .parked (.inl rfl) fun hnot => ?_
    simpa [hnot] using hnow

theorem Grounded.register (hs : Grounded S s) {po : PollOpts} {o : ι} {op : Op ι Sql}
    {results : List (OpResult Row)}
    (hran : ∃ image result, s.live o = some image ∧ site.query image op.sql = .ok result ∧
      results = [result]) (hfold : FoldsDurable S e s) :
    Grounded S (s.register site e t po o op results) := by
  obtain ⟨image, result, himage, hquery, hresults⟩ := hran
  have hrefresh (hlog : site.logPrimary = true) :
      Tame S s (s.refreshIfStale site e.again o).2 := by
    refine tame_refreshIfStale hlog hfold.again fun _ f _ _ hnone => ?_
    rw [himage] at hnone
    cases hnone
  have hreg : Registered site e t po o op results s (s.register site e t po o op results) :=
    registered_register po o op results
  generalize s.register site e t po o op results = s' at hreg ⊢
  cases hreg with
  | answered hclean hready =>
    refine hs.tame ((talks_send _ _).tame ?_)
    intro sent hsent
    rcases List.mem_append.mp hsent with hold | hnew
    · exact .inl hold
    · rw [List.mem_singleton.mp hnew]
      refine .inr ?_
      intro o' p answer hpoll hdurable hok
      cases hpoll
      cases hok
      have hgood := hs.clean himage (hclean hdurable)
      exact ⟨image, result, S.durable_committed hgood, hquery, hresults⟩
  | refreshed hlog hdurable htrue hfresh hquery' hresults' =>
    refine (hs.tame (hrefresh hlog)).tame ((talks_send _ _).tame ?_)
    intro sent hsent
    rcases List.mem_append.mp hsent with hold | hnew
    · exact .inl hold
    · rw [List.mem_singleton.mp hnew]
      refine .inr ?_
      intro o' p answer hpoll _ hok
      cases hpoll
      cases hok
      obtain ⟨missed, hread, hfold'⟩ := refreshIfStale_true htrue
      rw [hfold'] at hfresh
      cases hfresh
      have hgood := hfold.again hlog _ missed (.inl hread)
      exact ⟨_, _, S.durable_committed hgood, hquery', hresults'⟩
  | parked hfresh _ =>
    have hgood {s' : State ι Img Sql Row} (hs' : Grounded S s') (polls) :
        Grounded S { s' with polls } :=
      hs'.tame (Talks.tame ⟨rfl, rfl, rfl, rfl, rfl, rfl, rfl, rfl, rfl⟩ fun _ h => .inl h)
    rcases hfresh with rfl | ⟨hlog, -, rfl⟩
    · exact hgood hs _
    · exact hgood (hs.tame (hrefresh hlog)) _

/-- A transaction that has been applied is answered, or rides with what it changed. -/
theorem Grounded.settle_wrote (hs : Grounded S s) {results : List (OpResult Row)}
    {images : ι → Option Img} (hread : t.readOnly = false)
    (hwrote : State.writeOps site s.live t.ops = .ok (results, images)) :
    Grounded S (({ s with live := fun o => if o ∈ t.participants then images o else s.live o } :
      State ι Img Sql Row).settle site e t results (changedBy site e t s.live images)) := by
  generalize hnext : ({ s with
    live := fun o => if o ∈ t.participants then images o else s.live o } :
      State ι Img Sql Row) = next
  have hlive : next.live = fun o => if o ∈ t.participants then images o else s.live o := by
    rw [← hnext]
  have hfires {next' : State ι Img Sql Row} (h : Grounded S next') :
      Grounded S (next'.firePolls site e false t.participants) :=
    h.tame (tame_firePolls h fun hpass => by cases hpass)
  unfold State.settle
  rw [if_neg (by simp [hread])]
  split_ifs with hempty
  · refine hfires (hs.tame (tame_wrote (e := e) hwrote hlive ?_ ?_ ?_ ?_ ?_ ?_))
    · intro o ho
      subst hnext
      refine ⟨ho, ?_⟩
      rw [List.isEmpty_iff.mp hempty]
      exact List.not_mem_nil
    · subst hnext
      rfl
    · subst hnext
      rfl
    · subst hnext
      rfl
    · intro txn htxn
      subst hnext
      exact .inl htxn
    · intro sent hsent
      subst hnext
      rcases List.mem_append.mp hsent with hold | hnew
      · exact .inl hold
      · rw [List.mem_singleton.mp hnew]
        exact .inr (told_of_poll_none rfl)
  · obtain ⟨txn, hparticipants, hpoll, hboats⟩ :=
      boats_acknowledge site e t results (changedBy site e t s.live images) next
    obtain ⟨hlive', hship, hfetches, -⟩ :=
      live_acknowledge site e t results (changedBy site e t s.live images) next
    have hnextboats : next.boats = s.boats := by rw [← hnext]
    refine hfires (hs.tame (tame_wrote (e := e) hwrote (hlive'.trans hlive) ?_ ?_ ?_ ?_ ?_ ?_))
    · intro o ho
      rw [hboats, Boats.mem_applied, hparticipants, hnextboats] at ho
      exact ⟨fun h => ho (.inr h), fun h => ho (.inl h)⟩
    · rw [hship, ← hnext]
    · rw [hboats, Boats.applied_inflight, hnextboats]
    · rw [hfetches, ← hnext]
    · intro txn' htxn'
      rw [hboats, Boats.applied_pending, hnextboats] at htxn'
      rcases List.mem_append.mp htxn' with hold | hnew
      · exact .inl hold
      · rw [List.mem_singleton.mp hnew]
        exact .inr hpoll
    · intro sent hsent
      rcases outbox_acknowledge (S := S) hsent with hold | htold
      · refine .inl ?_
        rwa [← hnext] at hold
      · exact .inr htold

theorem board_cases (pass : List ι) (s : State ι Img Sql Row) :
    Talks s (s.board site e pass).2 ∧
      (∀ w ∈ (s.board site e pass).1, ∃ o ∈ pass, ∃ image p, s.live o = some image ∧
        w.1 = State.pollAsker o p ∧ p.durable = true ∧ Fires site image p w.2.results) ∧
      ∀ sent ∈ (s.board site e pass).2.outbox,
        sent ∈ s.outbox ∨ ∃ asker error, sent = ⟨asker, .error error⟩ := by
  have hall : ∀ (objects : List ι) (waiters : List (Waiter ι Sql Row)) (s : State ι Img Sql Row),
      let result := objects.foldl (fun acc o =>
        let taken := acc.2.takeFiredPolls site e o true
        (acc.1 ++ taken.1, taken.2)) (waiters, s)
      Talks s result.2 ∧
        (∀ w ∈ result.1, w ∈ waiters ∨ ∃ o ∈ objects, ∃ image p, s.live o = some image ∧
          w.1 = State.pollAsker o p ∧ p.durable = true ∧ Fires site image p w.2.results) ∧
        ∀ sent ∈ result.2.outbox,
          sent ∈ s.outbox ∨ ∃ asker error, sent = ⟨asker, .error error⟩ := by
    intro objects
    induction objects with
    | nil => exact fun waiters s => ⟨Talks.refl s, fun w hw => .inl hw,
        fun sent hsent => .inl hsent⟩
    | cons o objects ih =>
      intro waiters s
      have htalks : Talks s (s.takeFiredPolls site e o true).2 := talks_takeFiredPolls o true
      obtain ⟨htalks', hwaiters, hout⟩ := ih (waiters ++ (s.takeFiredPolls site e o true).1)
        (s.takeFiredPolls site e o true).2
      refine ⟨htalks.trans htalks', ?_, ?_⟩
      · intro w hw
        rcases hwaiters w hw with hw | ⟨o', ho', image, p, hlive, hrest⟩
        · rcases List.mem_append.mp hw with hw | hw
          · exact .inl hw
          · obtain ⟨image, p, hlive, hasker, -, hpass, hfires⟩ := mem_takeFiredPolls hw
            exact .inr ⟨o, List.mem_cons_self, image, p, hlive, hasker, hpass, hfires⟩
        · rw [htalks.live] at hlive
          exact .inr ⟨o', List.mem_cons_of_mem _ ho', image, p, hlive, hrest⟩
      · intro sent hsent
        rcases hout sent hsent with hold | herror
        · exact outbox_takeFiredPolls hold
        · exact .inr herror
  obtain ⟨htalks, hwaiters, hout⟩ := hall pass [] s
  refine ⟨htalks, fun w hw => ?_, hout⟩
  rcases hwaiters w hw with hnone | hfires
  · cases hnone
  · exact hfires

section

omit [LinearOrder ι]

theorem mem_items {objects : List ι} {item : ShipItem ι Img}
    (h : item ∈ objects.filterMap s.item) :
    item.object ∈ objects ∧ s.live item.object = some item.image ∧
      item.expectedSeq = (s.logSeq item.object).getD 0 := by
  obtain ⟨o, ho, hitem⟩ := List.mem_filterMap.mp h
  obtain ⟨image, hlive, rfl⟩ := Option.map_eq_some_iff.mp hitem
  exact ⟨ho, hlive, rfl⟩

theorem map_object_items {objects : List ι} (h : ∀ o ∈ objects, (s.live o).isSome) :
    (objects.filterMap s.item).map ShipItem.object = objects := by
  induction objects with
  | nil => rfl
  | cons o objects ih =>
    obtain ⟨image, hlive⟩ := Option.isSome_iff_exists.mp (h o List.mem_cons_self)
    have hitem : s.item o = some ⟨o, image, (s.logSeq o).getD 0⟩ := by
      unfold State.item
      rw [hlive]
      rfl
    rw [List.filterMap_cons_some hitem, List.map_cons,
      ih fun o' ho' => h o' (List.mem_cons_of_mem _ ho')]

theorem mem_boarding {b : Boats ι (Waiter ι Sql Row)} {cut : Boats.Cut ι} {w : Waiter ι Sql Row}
    (h : w ∈ b.boarding cut) : ∃ txn ∈ b.pending, txn.waiter = some w := by
  obtain ⟨i, -, hw⟩ := List.mem_filterMap.mp h
  obtain ⟨txn, htxn, hwaiter⟩ := Option.bind_eq_some_iff.mp hw
  exact ⟨txn, List.mem_of_getElem? htxn, hwaiter⟩

end

theorem mem_ashore_pending {b : Boats ι (Waiter ι Sql Row)} {cut : Boats.Cut ι}
    {txn : AppliedTxn ι (Waiter ι Sql Row)} (h : txn ∈ (b.ashore cut).pending) :
    txn ∈ b.pending := by
  rw [Boats.ashore_pending] at h
  obtain ⟨i, -, htxn⟩ := List.mem_filterMap.mp h
  exact List.mem_of_getElem? htxn

theorem torn_launch : (s.launch site e).torn = s.torn := by
  unfold State.launch
  dsimp only
  split_ifs
  · rfl
  · exact (board_cases _ _).1.torn
  · rfl
  · rfl

/-- A boat leaves with the live images of its objects, and with the polls that fire on these. -/
theorem Grounded.depart (hs : Grounded S s) (hnone : s.boats.inflight = none) {cut : Boats.Cut ι}
    (hlive : ∀ o ∈ cut.objects, (s.live o).isSome) {next : State ι Img Sql Row}
    {fired : List (Waiter ι Sql Row)}
    (hboard : State.board site e cut.objects { s with boats := s.boats.ashore cut } =
      (fired, next)) :
    Grounded S { next with
      boats := { s.boats.ashore cut with inflight := some cut.objects }
      ship := some ⟨cut.objects.filterMap s.item, s.boats.boarding cut ++ fired, .underway⟩ } := by
  obtain ⟨htalks, hfired, hout⟩ := board_cases (e := e) cut.objects
    { s with boats := s.boats.ashore cut }
  rw [hboard] at htalks hfired hout
  have hashore : ∀ o, ¬ s.Aboard o := by
    rintro o ⟨boat, hboat, -⟩
    rw [hnone] at hboat
    cases hboat
  have hnext : next.live = s.live := htalks.live
  have hfetches : next.fetches = s.fetches := htalks.fetches
  constructor
  · exact congrArg some (map_object_items hlive).symm
  · intro o image himage hclean
    obtain ⟨hdirty, haboard⟩ := unshipped_eq_false.mp hclean
    have hout : o ∉ cut.objects := fun hin => haboard ⟨_, rfl, hin⟩
    have hwas : o ∉ s.boats.dirty := fun hin => hdirty ((Boats.mem_cleanAll o).mpr ⟨hout, hin⟩)
    exact hs.clean (hnext ▸ himage) (unshipped_eq_false.mpr ⟨hwas, hashore o⟩)
  · intro o image himage
    exact hs.ranked (hnext ▸ himage)
  · rintro ship ⟨⟩ o image himage - -
    refine .inl fun item hitem ho => ?_
    obtain ⟨-, hitem, -⟩ := mem_items hitem
    have himage : next.live o = some image := himage
    rw [ho, ← hnext, himage] at hitem
    exact (Option.some.inj hitem).symm
  · rintro ship promoted ⟨⟩ ⟨⟩
  · rintro ship ⟨⟩ item hitem
    exact hs.ranked (mem_items hitem).2.1
  · rintro ship ⟨⟩ item hitem item' hitem' ho
    obtain ⟨-, himage, -⟩ := mem_items hitem
    obtain ⟨-, himage', -⟩ := mem_items hitem'
    rw [ho, himage] at himage'
    exact (Option.some.inj himage').symm
  · rintro - ship ⟨⟩ item hitem
    obtain ⟨-, himage, -⟩ := mem_items hitem
    exact ⟨item.image, hnext ▸ himage, le_refl _⟩
  · intro f hf
    rw [show ∀ o, next.live o = s.live o from fun o => by rw [hnext]]
    exact hs.fetched f (hfetches ▸ hf)
  · intro hstrict
    exact hfetches ▸ hs.once hstrict
  · rintro ship ⟨⟩ w hw
    rcases List.mem_append.mp hw with hw | hw
    · obtain ⟨txn, htxn, hwaiter⟩ := mem_boarding hw
      intro o p hpoll
      rw [hs.waiting txn htxn w hwaiter] at hpoll
      cases hpoll
    · obtain ⟨o, ho, image, p, himage, hasker, -, hfires⟩ := hfired w hw
      obtain ⟨result, hquery, hresults⟩ := hfires.ran
      intro o' p' hpoll
      rw [hasker] at hpoll
      cases hpoll
      have hitem : s.item o = some ⟨o, image, (s.logSeq o).getD 0⟩ := by
        have himage : s.live o = some image := himage
        unfold State.item
        rw [himage]
        rfl
      refine ⟨image, result, ⟨_, List.mem_filterMap.mpr ⟨o, ho, hitem⟩, rfl, rfl⟩, hquery, ?_⟩
      exact hresults
  · intro txn htxn
    exact hs.waiting txn (mem_ashore_pending htxn)
  · intro sent hsent
    rcases hout sent hsent with hold | ⟨asker, error, rfl⟩
    · exact hs.told sent hold
    · exact told_error

theorem Grounded.launch (hs : Grounded S s) : Grounded S (s.launch site e) := by
  unfold State.launch
  dsimp only
  split_ifs with hskip hread hlive
  · exact hs
  · have hnone : s.boats.inflight = none := by
      cases hin : s.boats.inflight with
      | none => rfl
      | some boat => exact absurd (by simp [hin]) hskip
    exact hs.depart hnone (List.all_eq_true.mp hlive) rfl
  · exact hs.tame (Talks.tame ⟨rfl, rfl, rfl, rfl, rfl, rfl, rfl, rfl, rfl⟩ fun _ h => .inl h)
  · -- a live file could not be read: all that the boat was to carry goes cold
    have hnone : s.boats.inflight = none := by
      cases hin : s.boats.inflight with
      | none => rfl
      | some boat => exact absurd (by simp [hin]) hskip
    refine hs.tame ⟨rfl, Boats.ashore_inflight _ _, List.Sublist.refl _, ?_, ?_, ?_, ?_, ?_⟩
    · intro o image himage
      have himage : (if o ∈ (s.boats.cut site.maxBoatBytes).objects then none else s.live o) =
          some image := himage
      split_ifs at himage with hin
      refine .inl ⟨image, himage, le_refl _, fun hdirty => ⟨rfl, fun hwas => hdirty ?_⟩⟩
      exact (Boats.mem_cleanAll o).mpr ⟨hin, hwas⟩
    · rintro - o ⟨boat, hboat, -⟩
      rw [hnone] at hboat
      cases hboat
    · intro _ f _ hcold
      change (if f.object ∈ (s.boats.cut site.maxBoatBytes).objects then none else _) = none
      split_ifs
      · rfl
      · exact hcold
    · exact fun txn htxn => .inl (mem_ashore_pending htxn)
    · intro sent hsent
      rcases List.mem_append.mp hsent with hsent | hsent
      · rcases List.mem_append.mp hsent with hold | hfailed
        · exact .inl hold
        · obtain ⟨asker, -, rfl⟩ := List.mem_map.mp hfailed
          exact .inr told_error
      · obtain ⟨asker, -, rfl⟩ := List.mem_map.mp hsent
        exact .inr told_error

theorem torn_maybeLaunch (h : (s.maybeLaunch site e).torn = false) : s.torn = false :=
  torn_revertOrphaned (torn_launch.symm.trans h)

theorem Grounded.maybeLaunch (hs : Grounded S s)
    (ht : S.strict → (s.maybeLaunch site e).torn = false) : Grounded S (s.maybeLaunch site e) := by
  have htorn (hstrict : S.strict) : (s.revertOrphaned e).torn = false :=
    torn_launch.symm.trans (ht hstrict)
  exact (hs.tame (tame_revertOrphaned htorn)).launch

/-- A transaction is applied, and answered or parked. -/
def State.execute (site : Site ι Img Sql Row) (e : Env ι) (t : Txn ι Sql)
    (s : State ι Img Sql Row) : State ι Img Sql Row :=
  match s.apply site e t with
  | (.error error, s) => s.send ⟨t.resp, none⟩ (.error error)
  | (.ok (results, changed), s) => s.settle site e t results changed

/-- What a read comes to: a poll is registered with the one result, and any other is answered. -/
theorem settle_read (hread : t.readOnly = true) {results : List (OpResult Row)}
    (hresults : s.readOps site t.ops = .ok results) (changed : List ι) :
    (∃ po o op, (∃ image result, s.live o = some image ∧ site.query image op.sql = .ok result ∧
        results = [result]) ∧
      s.settle site e t results changed = s.register site e t po o op results) ∨
    s.settle site e t results changed =
      s.send ⟨t.resp, none⟩ (.ok ⟨.txn t.txn, results, none⟩) := by
  unfold State.settle
  rw [if_pos hread]
  split
  · rename_i po o op hpo ho hop
    obtain ⟨op', hparticipants, hops, -⟩ := t.single (by rw [hpo]; rfl)
    rw [hparticipants] at ho
    rw [hops] at hop hresults
    cases ho
    cases hop
    exact .inl ⟨po, _, _, readOps_single hresults, rfl⟩
  · exact .inr rfl

theorem Grounded.execute (hs : Grounded S s)
    (ht : S.strict → (s.execute site e t).torn = false) (hfold : FoldsDurable S e s) :
    Grounded S (s.execute site e t) := by
  have hsend {s' : State ι Img Sql Row} (hs' : Grounded S s') {asker : Asker ι Sql}
      {answer : Except ApiError (TxnResponse Row)} (h : asker.poll = none) :
      Grounded S (s'.send asker answer) := by
    refine hs'.tame ((talks_send _ _).tame fun sent hsent => ?_)
    rcases List.mem_append.mp hsent with hold | hnew
    · exact .inl hold
    · rw [List.mem_singleton.mp hnew]
      exact .inr (told_of_poll_none h)
  unfold State.execute at ht ⊢
  have happlied : Applied site e t s (s.apply site e t) := applied_apply
  generalize s.apply site e t = applied at happlied ht ⊢
  cases happlied with
  | refused error => exact hsend hs rfl
  | half error seed => exact hsend (hs.tame (tame_revertClosure ht)) rfl
  | wrote hread hwrote => exact hs.settle_wrote hread hwrote
  | read hread hresults =>
    dsimp only
    obtain ⟨po, o, op, hran, heq⟩ | heq := settle_read (e := e) hread hresults []
    · rw [heq]
      exact hs.register hran hfold
    · rw [heq]
      exact hsend hs rfl

theorem Grounded.runAndComplete (hs : Grounded S s)
    (ht : S.strict → (s.runAndComplete site e t).torn = false) (hfold : FoldsDurable S e s)
    (hout : S.strict → site.logPrimary = true → ∀ f ∈ s.fetches, f.object ∉ t.participants) :
    Grounded S (s.runAndComplete site e t) := by
  have hcaught : Grounded S (s.catchUp site e t) := hs.catchUp hfold hout
  have hexecuted : Grounded S ((s.catchUp site e t).execute site e t) :=
    hcaught.execute (fun hstrict => torn_maybeLaunch (ht hstrict)) (hfold.same same_catchUp)
  exact hexecuted.maybeLaunch ht

theorem Grounded.finishClosing (hs : Grounded S s) : Grounded S s.finishClosing := by
  refine hs.tame (talks_finishClosing.tame fun sent hsent => ?_)
  unfold State.finishClosing at hsent
  split_ifs at hsent
  · rcases List.mem_append.mp hsent with hold | hnew
    · exact .inl hold
    · obtain ⟨asker, -, rfl⟩ := List.mem_map.mp hnew
      exact .inr told_error
  · exact .inl hsent

theorem Grounded.shutdown (hs : Grounded S s)
    (ht : S.strict → (s.shutdown site e).torn = false) : Grounded S (s.shutdown site e) := by
  have hclosing : Grounded S { s with closing := true } :=
    hs.tame (Talks.tame ⟨rfl, rfl, rfl, rfl, rfl, rfl, rfl, rfl, rfl⟩ fun _ h => .inl h)
  refine (hclosing.maybeLaunch fun hstrict => ?_).finishClosing
  exact talks_finishClosing.torn.symm.trans (ht hstrict)

/-- What is idle, clean and unqueued goes cold. -/
theorem tame_shed : Tame S s (s.shed e) where
  ship := rfl
  inflight := rfl
  fetches := List.Sublist.refl _
  live {o image} himage := by
    have himage : (if s.boats.unshipped o || e.queued o then s.live o else none) = some image :=
      himage
    split_ifs at himage
    exact .inl ⟨image, himage, le_refl _, fun hdirty => ⟨rfl, hdirty⟩⟩
  afloat _ o haboard hsome := by
    have hun : s.boats.unshipped o = true := by
      by_contra hclean
      exact (unshipped_eq_false.mp (by simpa using hclean)).2 haboard
    change (if s.boats.unshipped o || e.queued o then s.live o else none).isSome
    rwa [hun, Bool.true_or, if_pos rfl]
  frozen _ f _ hnone := by
    change (if s.boats.unshipped f.object || e.queued f.object then s.live f.object else none) =
      none
    split_ifs
    · exact hnone
    · rfl
  waiting _ htxn := .inl htxn
  told _ hsent := .inl hsent

/-- An object that leaves, or is dropped from the cache, goes cold. -/
theorem tame_chill {o : ι} (hashore : S.strict → ¬ s.Aboard o)
    (htold : ∀ sent ∈ s'.outbox, sent ∈ s.outbox ∨ Told S sent)
    (hlive : s'.live = Function.update s.live o none) (hboats : s'.boats = s.boats)
    (hship : s'.ship = s.ship) (hfetches : s'.fetches = s.fetches) : Tame S s s' where
  ship := hship
  inflight := by rw [hboats]
  fetches := by rw [hfetches]
  live {o' image} himage := by
    rw [hlive] at himage
    rw [hboats]
    by_cases ho : o' = o
    · subst ho
      rw [Function.update_self] at himage
      cases himage
    · rw [Function.update_of_ne ho] at himage
      exact .inl ⟨image, himage, le_refl _, fun hdirty => ⟨rfl, hdirty⟩⟩
  afloat hstrict o' haboard hsome := by
    have ho : o' ≠ o := by
      rintro rfl
      exact hashore hstrict haboard
    rwa [hlive, Function.update_of_ne ho]
  frozen _ f _ hnone := by
    rw [hlive]
    by_cases ho : f.object = o
    · rw [ho, Function.update_self]
    · rwa [Function.update_of_ne ho]
  waiting _ htxn := .inl (hboats ▸ htxn)
  told := htold

theorem tame_release {o : ι} : Tame S s (s.release o) := by
  unfold State.release
  split_ifs with hun
  · exact tame_refl s
  · have hclean := unshipped_eq_false.mp (by simpa using hun)
    refine tame_chill (fun _ => hclean.2) (fun sent hsent => ?_) rfl rfl rfl rfl
    rcases List.mem_append.mp hsent with hold | hfailed
    · exact .inl hold
    · obtain ⟨asker, -, rfl⟩ := List.mem_map.mp hfailed
      exact .inr told_error

theorem tame_arrive {o : ι} (hlegacy : S.strict → site.logPrimary = false) :
    Tame S s (s.arrive site e o) := by
  unfold State.arrive
  split
  · rename_i hlog
    refine tame_chill (fun hstrict => ?_) (fun _ hsent => .inl hsent) rfl rfl rfl rfl
    rw [hlegacy hstrict, Bool.false_and] at hlog
    cases hlog
  · exact tame_refl s

/-- What a fetch brought becomes live where nothing is. -/
theorem Grounded.onActivated (hs : Grounded S s) {f : Fetch ι Img} {i : Nat} {ok : Bool}
    (hf : s.fetches[i]? = some f) :
    Grounded S (({ s with fetches := s.fetches.eraseIdx i } : State ι Img Sql Row).onActivated
      site e f ok) := by
  have hmem : f ∈ s.fetches := List.mem_of_getElem? hf
  have hsub : (s.fetches.eraseIdx i).Sublist s.fetches := List.eraseIdx_sublist _ _
  have hothers (hstrict : S.strict) : ∀ f' ∈ s.fetches.eraseIdx i, f'.object ≠ f.object := by
    obtain ⟨hlt, heq⟩ := List.getElem?_eq_some_iff.mp hf
    have hperm := (List.getElem_cons_eraseIdx_perm hlt).map Fetch.object
    have hnodup := (hperm.nodup_iff).mpr (hs.once hstrict)
    rw [heq, List.map_cons, List.nodup_cons] at hnodup
    intro f' hf' hsame
    exact hnodup.1 (hsame ▸ List.mem_map_of_mem hf')
  obtain ⟨hdurable, hcold⟩ := hs.fetched f hmem
  have hashore (hstrict : S.strict) : ¬ s.Aboard f.object := by
    intro haboard
    obtain ⟨ship, hship, item, hitem, ho⟩ := hs.aboard_iff.mp haboard
    obtain ⟨image, himage, -⟩ := hs.afloat hstrict hship item hitem
    rw [ho, hcold hstrict] at himage
    cases himage
  unfold State.onActivated
  split
  · have hthaw : ∀ next : State ι Img Sql Row,
        next.live = Function.update s.live f.object (some f.image) → next.boats = s.boats →
        next.ship = s.ship → next.fetches = s.fetches.eraseIdx i → next.outbox = s.outbox →
        Tame S s next := by
      intro next hlive hboats hship hfetches houtbox
      refine ⟨hship, by rw [hboats], by rwa [hfetches], ?_, ?_, ?_, ?_, ?_⟩
      · intro o image himage
        rw [hlive] at himage
        rw [hboats]
        by_cases ho : o = f.object
        · subst ho
          rw [Function.update_self] at himage
          cases himage
          exact .inr ⟨hdurable, hashore⟩
        · rw [Function.update_of_ne ho] at himage
          exact .inl ⟨image, himage, le_refl _, fun hdirty => ⟨rfl, hdirty⟩⟩
      · intro _ o _ hsome
        rw [hlive]
        by_cases ho : o = f.object
        · rw [ho, Function.update_self]
          rfl
        · rwa [Function.update_of_ne ho]
      · intro hstrict f' hf' hnone
        rw [hfetches] at hf'
        rwa [hlive, Function.update_of_ne (hothers hstrict f' hf')]
      · exact fun txn htxn => .inl (hboats ▸ htxn)
      · exact fun sent hsent => .inl (houtbox ▸ hsent)
    dsimp only
    split
    · exact hs.tame (hthaw _ rfl rfl rfl rfl rfl)
    · exact hs.tame (hthaw _ rfl rfl rfl rfl rfl)
  · refine hs.tame ⟨rfl, rfl, hsub, ?_, fun _ _ _ hsome => hsome, fun _ _ _ hnone => hnone,
      fun _ htxn => .inl htxn, fun _ hsent => .inl hsent⟩
    exact fun himage => .inl ⟨_, himage, le_refl _, fun hdirty => ⟨rfl, hdirty⟩⟩

/-- A boat is back: what is live and clean is to be durable again. -/
theorem Grounded.docked (hs : Grounded S s) (hship : s'.ship = none)
    (hinflight : s'.boats.inflight = none)
    (hlive : ∀ {o image}, s'.live o = some image →
      s.live o = some image ∧ (o ∉ s'.boats.dirty → S.durable o image))
    (hfetches : s'.fetches = s.fetches)
    (hwaiting : ∀ txn ∈ s'.boats.pending,
      txn ∈ s.boats.pending ∨ ∀ w, txn.waiter = some w → w.1.poll = none)
    (htold : ∀ sent ∈ s'.outbox, sent ∈ s.outbox ∨ Told S sent) : Grounded S s' := by
  have hgone {ship : Ship ι Img Sql Row} (h : s'.ship = some ship) : False := by
    rw [hship] at h
    cases h
  constructor
  · rw [hinflight, hship]
    rfl
  · exact fun himage hclean => (hlive himage).2 (unshipped_eq_false.mp hclean).1
  · exact fun himage => hs.ranked (hlive himage).1
  · exact fun h => (hgone h).elim
  · exact fun h => (hgone h).elim
  · exact fun h => (hgone h).elim
  · exact fun h => (hgone h).elim
  · exact fun _ _ h => (hgone h).elim
  · intro f hf
    obtain ⟨hdurable, hcold⟩ := hs.fetched f (hfetches ▸ hf)
    refine ⟨hdurable, fun hstrict => ?_⟩
    cases hnow : s'.live f.object with
    | none => rfl
    | some image =>
      have hthen := (hlive hnow).1
      rw [hcold hstrict] at hthen
      cases hthen
  · intro hstrict
    rw [hfetches]
    exact hs.once hstrict
  · exact fun h => (hgone h).elim
  · intro txn htxn w hw
    rcases hwaiting txn htxn with hold | hnone
    · exact hs.waiting txn hold w hw
    · exact hnone w hw
  · intro sent hsent
    rcases htold sent hsent with hold | htold
    · exact hs.told sent hold
    · exact htold

theorem Grounded.landed_home (hs : Grounded S s) {items : List (ShipItem ι Img)}
    {waiters : List (Waiter ι Sql Row)} {promoted objects : List ι}
    (hship : s.ship = some ⟨items, waiters, .committed promoted⟩)
    (hobjects : s.boats.inflight = some objects) :
    Grounded S (({ s with boats := { s.boats with inflight := none }, ship := none } :
      State ι Img Sql Row).landed site e (items.map ShipItem.object) promoted objects) := by
  have hmatched := hs.matched
  rw [hobjects, hship] at hmatched
  have hobjects' : objects = items.map ShipItem.object := Option.some.inj hmatched
  -- what is clean on shore was clean before, or has just been promoted
  have hgood {o : ι} {image : Img} (hlive : s.live o = some image) (hdirty : o ∉ s.boats.dirty)
      (hpromoted : o ∈ items.map ShipItem.object → site.logPrimary = true ∨ o ∈ promoted) :
      S.durable o image := by
    by_cases haboard : s.Aboard o
    · obtain ⟨ship, hship', item, hitem, ho⟩ := hs.aboard_iff.mp haboard
      rw [hship] at hship'
      cases hship'
      rcases hs.carried hship hlive hdirty ⟨item, hitem, ho⟩ with himages | ⟨-, hdurable⟩
      · have hin : o ∈ items.map ShipItem.object := ho ▸ List.mem_map_of_mem hitem
        obtain ⟨item', hitem', ho', hdurable⟩ :=
          hs.landed hship rfl item hitem (ho.symm ▸ hpromoted hin)
        rw [himages item' hitem' (ho'.trans ho), ho] at hdurable
        exact hdurable
      · exact hdurable
    · exact hs.clean hlive (unshipped_eq_false.mpr ⟨hdirty, haboard⟩)
  unfold State.landed
  generalize hunpromoted : (if site.logPrimary then []
    else (items.map ShipItem.object).filter fun o => o ∉ promoted) = unpromoted
  have hmem {o : ι} (hout : o ∉ unpromoted) (hin : o ∈ items.map ShipItem.object) :
      site.logPrimary = true ∨ o ∈ promoted := by
    subst hunpromoted
    by_contra hnot
    push Not at hnot
    rw [if_neg hnot.1] at hout
    exact hout (List.mem_filter.mpr ⟨hin, by simpa using hnot.2⟩)
  have hdocked (next : State ι Img Sql Row) (hlive : next.live = s.live) (hnone : next.ship = none)
      (hinflight : next.boats.inflight = none)
      (hdirty : ∀ o, o ∉ next.boats.dirty → o ∉ s.boats.dirty ∧ o ∉ unpromoted)
      (hfetches : next.fetches = s.fetches)
      (hwaiting : ∀ txn ∈ next.boats.pending, txn ∈ s.boats.pending ∨ txn.waiter = none)
      (houtbox : next.outbox = s.outbox) : Grounded S (next.firePolls site e true
        (objects.filter fun o => (next.boats.dirty.lookup o).isNone)) := by
    have hnext : Grounded S next := by
      refine hs.docked hnone hinflight ?_ hfetches ?_ (fun _ hsent => .inl (houtbox ▸ hsent))
      · intro o image himage
        rw [hlive] at himage
        refine ⟨himage, fun hclean => hgood himage (hdirty o hclean).1 fun hin => ?_⟩
        exact hmem (hdirty o hclean).2 hin
      · intro txn htxn
        refine (hwaiting txn htxn).imp_right fun hnone w hw => ?_
        rw [hnone] at hw
        cases hw
    refine hnext.tame (tame_firePolls hnext fun _ o ho => ?_)
    have hclean : next.boats.dirty.lookup o = none := by simpa using (List.mem_filter.mp ho).2
    refine unshipped_eq_false.mpr ⟨AList.lookup_eq_none.mp hclean, ?_⟩
    rintro ⟨boat, hboat, -⟩
    rw [hinflight] at hboat
    cases hboat
  have happlied (o : ι)
      (ho : o ∉
        (Boats.applied e.bytes ⟨unpromoted, none⟩ { s.boats with inflight := none }).dirty) :
      o ∉ s.boats.dirty ∧ o ∉ unpromoted := by
    rw [Boats.mem_applied] at ho
    exact ⟨fun h => ho (.inr h), fun h => ho (.inl h)⟩
  have hpending (txn) (htxn : txn ∈ (Boats.applied e.bytes ⟨unpromoted, none⟩
      { s.boats with inflight := none }).pending) : txn ∈ s.boats.pending ∨ txn.waiter = none := by
    rw [Boats.applied_pending] at htxn
    rcases List.mem_append.mp htxn with hold | hnew
    · exact .inl hold
    · rw [List.mem_singleton.mp hnew]
      exact .inr rfl
  dsimp only
  split
  · rename_i hempty
    rw [List.isEmpty_iff] at hempty
    have hclean (o : ι) (ho : o ∉ s.boats.dirty) : o ∉ s.boats.dirty ∧ o ∉ unpromoted := by
      rw [hempty]
      exact ⟨ho, List.not_mem_nil⟩
    split
    · exact hdocked _ rfl rfl rfl hclean rfl (fun _ h => .inl h) rfl
    · exact hdocked _ rfl rfl rfl hclean rfl (fun _ h => .inl h) rfl
  · split
    · exact hdocked _ rfl rfl (Boats.applied_inflight _ _) happlied rfl hpending rfl
    · exact hdocked _ rfl rfl (Boats.applied_inflight _ _) happlied rfl hpending rfl

theorem Grounded.sunk (hs : Grounded S s) {objects : List ι} {rebased : Option ι}
    (hobjects : s.boats.inflight = some objects) :
    Grounded S ((({ s with boats := { s.boats with inflight := none }, ship := none } :
      State ι Img Sql Row).relinquish e rebased).revertClosure objects) := by
  generalize hhome : ({ s with boats := { s.boats with inflight := none }, ship := none } :
      State ι Img Sql Row) = home
  have hgiven : ∀ {o image}, (home.relinquish e rebased).live o = some image →
      s.live o = some image ∧
        (o ∉ (home.relinquish e rebased).boats.dirty → o ∉ s.boats.dirty) := by
    intro o image himage
    subst hhome
    unfold State.relinquish at himage ⊢
    split at himage
    · exact ⟨himage, fun h => h⟩
    · rename_i r
      dsimp only at himage ⊢
      split at himage
      · rename_i hclaimed
        have himage : Function.update s.live r none o = some image := himage
        by_cases ho : o = r
        · subst ho
          rw [Function.update_self] at himage
          cases himage
        · rw [Function.update_of_ne ho] at himage
          refine ⟨himage, fun hclean hin => hclean ?_⟩
          rw [if_pos hclaimed]
          change o ∈ (Boats.clean r _).dirty
          rw [Boats.clean_dirty]
          exact AList.mem_erase.mpr ⟨ho, hin⟩
      · rename_i hclaimed
        rw [if_neg hclaimed]
        exact ⟨himage, fun h => h⟩
  have hkeep : (home.relinquish e rebased).ship = none ∧
      (home.relinquish e rebased).boats.inflight = none ∧
      (home.relinquish e rebased).fetches = s.fetches ∧
      (home.relinquish e rebased).boats.pending = s.boats.pending ∧
      ∀ sent ∈ (home.relinquish e rebased).outbox, sent ∈ s.outbox ∨ Told S sent := by
    subst hhome
    unfold State.relinquish
    split
    · exact ⟨rfl, rfl, rfl, rfl, fun sent h => .inl h⟩
    · split_ifs
      · refine ⟨rfl, Boats.clean_inflight _ _, rfl, Boats.clean_pending _ _, fun sent hsent => ?_⟩
        rcases List.mem_append.mp hsent with hold | hfailed
        · exact .inl hold
        · obtain ⟨asker, -, rfl⟩ := List.mem_map.mp hfailed
          exact .inr told_error
      · exact ⟨rfl, rfl, rfl, rfl, fun sent h => .inl h⟩
  generalize home.relinquish e rebased = given at hgiven hkeep ⊢
  obtain ⟨hship, hinflight, hfetches, hpending, houtbox⟩ := hkeep
  have hreverted := reverted_revertClosure given objects
  refine hs.docked hship (hreverted.inflight.trans hinflight) ?_ hfetches ?_ ?_
  · intro o image himage
    obtain ⟨hout, himage⟩ := live_revertClosure himage
    obtain ⟨hlive, hclean⟩ := hgiven himage
    refine ⟨hlive, fun hdirty => hs.clean hlive (unshipped_eq_false.mpr ⟨?_, ?_⟩)⟩
    · exact hclean fun hin => hdirty ((dirty_revertClosure hout).mpr hin)
    · rintro ⟨boat, hboat, hin⟩
      rw [hobjects] at hboat
      cases hboat
      exact hout (Groups.subset_closure _ _ hin)
  · intro txn htxn
    rw [hreverted.retained, hpending] at htxn
    exact .inl (List.mem_filter.mp htxn).1
  · intro sent hsent
    rcases told_revertClosure hsent with hold | htold
    · exact houtbox sent hold
    · exact .inr htold

theorem Grounded.onShipDone (hs : Grounded S s)
    (ht : S.strict → (s.onShipDone site e).torn = false) : Grounded S (s.onShipDone site e) := by
  unfold State.onShipDone at ht ⊢
  split at ht
  · rename_i items waiters promoted objects hship hobjects
    refine Grounded.finishClosing (Grounded.maybeLaunch (hs.landed_home hship hobjects) ?_)
    exact fun hstrict => talks_finishClosing.torn.symm.trans (ht hstrict)
  · rename_i items waiters rebased objects hship hobjects
    refine Grounded.finishClosing (Grounded.maybeLaunch (hs.sunk hobjects) ?_)
    exact fun hstrict => talks_finishClosing.torn.symm.trans (ht hstrict)
  · exact hs

theorem Grounded.cancelPoll (hs : Grounded S s) (o : ι) (conn frame : Nat) :
    Grounded S (s.cancelPoll o conn frame) :=
  hs.tame (Talks.tame ⟨rfl, rfl, rfl, rfl, rfl, rfl, rfl, rfl, rfl⟩ fun _ h => .inl h)

/-- A cold object that polls wait on has not fallen behind. -/
def Abreast (s : State ι Img Sql Row) (objects : List ι) : Prop :=
  ∀ o ∈ objects, s.live o = none → s.committedSeq o ≤ (s.logSeq o).getD 0

theorem Abreast.recount {objects : List ι} (h : Abreast s objects) (o : ι) :
    Abreast (s.recount site e o) objects := by
  obtain heq | ⟨uncounted, missed, -, -, -, heq⟩ := recount_cases site e s o
  · rwa [heq]
  · rw [heq]
    intro o' ho' hnone
    have hnone : Function.update s.live o (some (s.fold site o missed)) o' = none := hnone
    by_cases hsame : o' = o
    · subst hsame
      rw [Function.update_self] at hnone
      cases hnone
    · rw [Function.update_of_ne hsame] at hnone
      have hlogSeq : (s.refold site o missed).logSeq o' = s.logSeq o' :=
        Function.update_of_ne hsame _ _
      change s.committedSeq o' ≤ _
      rw [hlogSeq]
      exact h o' ho' hnone

omit [LinearOrder ι] in
theorem Abreast.talks {objects : List ι} (h : Abreast s objects) (htalks : Talks s s') :
    Abreast s' objects := by
  intro o ho hnone
  unfold State.committedSeq
  rw [htalks.committed, htalks.logSeq]
  exact h o ho (htalks.live ▸ hnone)

/-- An object with parked polls catches up, and these are judged. -/
def State.recheck (site : Site ι Img Sql Row) (e : Env ι) (s : State ι Img Sql Row) (o : ι) :
    State ι Img Sql Row :=
  let s := if site.logPrimary then s.recount site e o else s
  (s.firePolls site e true [o]).firePolls site e false [o]

/-- A recheck of clean objects leaves the store and the boats as they are. -/
theorem recheck_cases (site : Site ι Img Sql Row) (e : Env ι) (s : State ι Img Sql Row) (o : ι) :
    ∃ fresh : State ι Img Sql Row, SameStore s fresh ∧
      (fresh = s ∨ site.logPrimary = true ∧ fresh = s.recount site e o) ∧
      Talks fresh (s.recheck site e o) ∧
      s.recheck site e o = (fresh.firePolls site e true [o]).firePolls site e false [o] := by
  unfold State.recheck
  dsimp only
  split
  · rename_i hlog
    exact ⟨_, same_recount o, .inr ⟨hlog, rfl⟩,
      (talks_firePolls _ _).trans (talks_firePolls _ _), rfl⟩
  · exact ⟨s, SameStore.refl s, .inl rfl, (talks_firePolls _ _).trans (talks_firePolls _ _), rfl⟩

theorem Grounded.recheckPolls (hs : Grounded S s) (hfold : FoldsDurable S e s)
    (hcurrent : S.strict → site.logPrimary = true → Abreast s (s.polls.map Prod.fst)) :
    Grounded S (s.recheckPolls site e) := by
  generalize hobjects : ((s.polls.map Prod.fst).dedup.filter fun o => !s.boats.unshipped o) =
    objects
  have hclean : ∀ o ∈ objects, s.boats.unshipped o = false := by
    intro o ho
    subst hobjects
    simpa using (List.mem_filter.mp ho).2
  replace hcurrent : S.strict → site.logPrimary = true → Abreast s objects := by
    intro hstrict hlog o ho
    subst hobjects
    exact hcurrent hstrict hlog o (List.mem_dedup.mp (List.mem_filter.mp ho).1)
  have hrecheck : s.recheckPolls site e = objects.foldl (State.recheck site e) s := by
    rw [← hobjects]
    rfl
  rw [hrecheck]
  clear hrecheck hobjects
  induction objects generalizing s with
  | nil => exact hs
  | cons o objects ih =>
    obtain ⟨fresh, hsame, hfresh, htalks, heq⟩ := recheck_cases site e s o
    have hout : Grounded S fresh ∧
        (S.strict → site.logPrimary = true → Abreast fresh (o :: objects)) := by
      rcases hfresh with rfl | ⟨hlog, rfl⟩
      · exact ⟨hs, hcurrent⟩
      · refine ⟨hs.tame (tame_recount hlog hfold (hclean o List.mem_cons_self) ?_), ?_⟩
        · exact fun hstrict hnone => hcurrent hstrict hlog o List.mem_cons_self hnone
        · exact fun hstrict hlog => (hcurrent hstrict hlog).recount o
    have hboats : (s.recheck site e o).boats = s.boats := htalks.boats.trans hsame.boats
    have hgood : Grounded S (s.recheck site e o) := by
      rw [heq]
      have hfirst : Grounded S (fresh.firePolls site e true [o]) := by
        refine hout.1.tame (tame_firePolls hout.1 fun _ o' ho' => ?_)
        rw [List.mem_singleton.mp ho', hsame.boats]
        exact hclean o List.mem_cons_self
      exact hfirst.tame (tame_firePolls hfirst fun hpass => by cases hpass)
    rw [List.foldl_cons]
    refine ih hgood ?_ ?_ ?_
    · intro hlog o' missed hread
      have hfold' : (s.recheck site e o).fold site o' missed = s.fold site o' missed := by
        unfold State.fold State.readSeq State.committedSeq
        rw [htalks.committed, hsame.committed]
      rw [hfold']
      exact hfold hlog o' missed hread
    · intro o' ho'
      rw [hboats]
      exact hclean o' (List.mem_cons_of_mem _ ho')
    · intro hstrict hlog o' ho'
      exact ((hout.2 hstrict hlog).talks htalks) o' (List.mem_cons_of_mem _ ho')

end Fafo.Polls
