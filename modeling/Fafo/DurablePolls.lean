import Fafo.Handling
import Fafo.Library.Runs

/-! Durable polls: whichever path answers one, it is told what has been committed. -/
namespace Fafo.Polls

variable {ι Img Sql Row : Type} [LinearOrder ι] {site : Site ι Img Sql Row} {e : Env ι}
variable {s s' : State ι Img Sql Row} {S S' : Standard site} {t : Txn ι Sql}

/-- What the store holds of the objects. -/
structure Shelf (ι Img : Type) where
  committed : ι → List Img
  promoted : ι → Img
  records : List (List (ShipItem ι Img))

namespace Shelf

variable (site : Site ι Img Sql Row) (shelf : Shelf ι Img)

def foldAt (o : ι) (seq : Nat) : Img := ((shelf.committed o).take seq).getLast?.getD site.blank

/-- The fold at some committed seq; under the legacy engine the image promoted last, or one that a
landed commit record carries. -/
def Committed (o : ι) (image : Img) : Prop :=
  if site.logPrimary then
    ∃ seq ≤ (shelf.committed o).length, shelf.foldAt site o seq = image
  else image = shelf.promoted o ∨
    ∃ record ∈ shelf.records, ∃ item ∈ record, item.object = o ∧ item.image = image

/-- No landed record would move the object past the image. -/
def Outranks (o : ι) (image : Img) : Prop :=
  site.logPrimary = false → ∀ record ∈ shelf.records, ∀ item ∈ record, item.object = o →
    site.changeCounter item.image ≤ site.changeCounter image

/-- What an activation brings now. -/
def Current (o : ι) (image : Img) : Prop :=
  (if site.logPrimary then shelf.foldAt site o (shelf.committed o).length else shelf.promoted o) =
    image ∧ shelf.Outranks site o image

omit [LinearOrder ι] in
theorem Current.committed {o : ι} {image : Img} (h : shelf.Current site o image) :
    shelf.Committed site o image := by
  obtain ⟨rfl, -⟩ := h
  unfold Committed
  split_ifs
  · exact ⟨_, le_refl _, rfl⟩
  · exact .inl rfl

/-- Under the log engine, whatever was committed once will do. -/
def loose : Standard site where
  strict := False
  durable := shelf.Committed site
  committed := shelf.Committed site
  outranks _ _ := True
  durable_committed h := h
  durable_outranks _ := trivial
  outranks_mono _ _ := trivial

/-- What is clean is what an activation would bring. -/
def firm : Standard site where
  strict := True
  durable := shelf.Current site
  committed := shelf.Committed site
  outranks := shelf.Outranks site
  durable_committed h := h.committed
  durable_outranks h := h.2
  outranks_mono h hle hlegacy record hrecord item hitem ho :=
    (h hlegacy record hrecord item hitem ho).trans hle

/-- The standard of a run: firm, or loose. -/
def standard (firmly : Bool) : Standard site := if firmly then shelf.firm site else shelf.loose site

omit [LinearOrder ι] in
@[simp] theorem standard_committed (firmly : Bool) :
    (shelf.standard site firmly).committed = shelf.Committed site := by
  cases firmly <;> rfl

omit [LinearOrder ι] in
theorem standard_strict {firmly : Bool} (h : (shelf.standard site firmly).strict) :
    firmly = true := by
  cases firmly with
  | true => rfl
  | false => exact h.elim

end Shelf

def State.shelf (s : State ι Img Sql Row) : Shelf ι Img := ⟨s.committed, s.promoted, s.records⟩

section

omit [LinearOrder ι]

theorem Talks.shelf (h : Talks s s') : s'.shelf = s.shelf := by
  unfold State.shelf
  rw [h.committed, h.promoted, h.records]

theorem SameStore.shelf (h : SameStore s s') : s'.shelf = s.shelf := by
  unfold State.shelf
  rw [h.committed, h.promoted, h.records]

/-- A fold that misses nothing is what was committed last. -/
theorem fold_current (hlog : site.logPrimary = true) (o : ι) :
    s.shelf.Current site o (s.fold site o 0) := by
  refine ⟨?_, fun hlegacy => ?_⟩
  · rw [if_pos hlog]
    rfl
  · rw [hlog] at hlegacy
    cases hlegacy

/-- A fold is the one at its seq, whatever it misses. -/
theorem fold_committed (hlog : site.logPrimary = true) (o : ι) (missed : Nat) :
    s.shelf.Committed site o (s.fold site o missed) := by
  unfold Shelf.Committed
  rw [if_pos hlog]
  exact ⟨s.readSeq o missed, readSeq_le o missed, rfl⟩

end

/-- No fold of the step misses an entry. -/
def Env.Whole (e : Env ι) : Prop :=
  ∀ o missed, e.folds o = some missed ∨ e.refolds o = some missed → missed = 0

omit [LinearOrder ι] in
theorem Env.Whole.again (h : e.Whole) : e.again.Whole :=
  fun o missed hread => h o missed (.inr (or_self_iff.mp hread))

/-- No committed entry is erased. -/
def KeepsEntries (site : Site ι Img Sql Row) (s : State ι Img Sql Row)
    (m : Move ι Img Sql × Env ι) : Prop := ∀ o, s.committed o <+: (s.step site m).committed o

theorem shelf_revertOrphaned : (s.revertOrphaned e).shelf = s.shelf := by
  unfold State.revertOrphaned
  dsimp only
  split_ifs <;> rfl

theorem shelf_launch : (s.launch site e).shelf = s.shelf := by
  unfold State.launch
  dsimp only
  split_ifs
  · rfl
  · exact (board_cases _ _).1.shelf
  · rfl
  · rfl

theorem shelf_maybeLaunch : (s.maybeLaunch site e).shelf = s.shelf :=
  shelf_launch.trans shelf_revertOrphaned

theorem shelf_settle (results : List (OpResult Row)) (changed : List ι) :
    (s.settle site e t results changed).shelf = s.shelf := by
  unfold State.settle
  split_ifs
  · split
    · rename_i po o op _ _ _
      have hreg : Registered site e t po o op results s (s.register site e t po o op results) :=
        registered_register po o op results
      generalize s.register site e t po o op results = s' at hreg ⊢
      cases hreg with
      | answered _ _ => rfl
      | refreshed _ _ _ _ _ _ => exact (same_refreshIfStale o).shelf
      | parked hfresh _ =>
        rcases hfresh with rfl | ⟨-, -, rfl⟩
        · rfl
        · exact (same_refreshIfStale o).shelf
    · rfl
  · exact ((talks_send _ _).trans (talks_firePolls _ _)).shelf
  · refine (talks_firePolls _ _).shelf.trans ?_
    unfold State.acknowledge
    dsimp only
    split_ifs <;> rfl

theorem shelf_execute : (s.execute site e t).shelf = s.shelf := by
  unfold State.execute
  have happlied : Applied site e t s (s.apply site e t) := applied_apply
  generalize s.apply site e t = applied at happlied ⊢
  cases happlied with
  | refused error => rfl
  | half error seed => rfl
  | read _ _ => exact shelf_settle _ _
  | wrote _ _ => exact shelf_settle _ _

theorem shelf_runAndComplete : (s.runAndComplete site e t).shelf = s.shelf :=
  shelf_maybeLaunch.trans (shelf_execute.trans same_catchUp.shelf)

theorem shelf_onShipDone : (s.onShipDone site e).shelf = s.shelf := by
  unfold State.onShipDone
  split
  · refine talks_finishClosing.shelf.trans (shelf_maybeLaunch.trans ?_)
    unfold State.landed
    dsimp only
    refine (talks_firePolls _ _).shelf.trans ?_
    split <;> split <;> rfl
  · refine talks_finishClosing.shelf.trans (shelf_maybeLaunch.trans ?_)
    unfold State.relinquish
    split
    · rfl
    · split <;> rfl
  · rfl

theorem shelf_recheckPolls : (s.recheckPolls site e).shelf = s.shelf := by
  have hall : ∀ (objects : List ι) (s : State ι Img Sql Row),
      (objects.foldl (State.recheck site e) s).shelf = s.shelf := by
    intro objects
    induction objects with
    | nil => exact fun _ => rfl
    | cons o objects ih =>
      intro s
      obtain ⟨fresh, hsame, -, htalks, -⟩ := recheck_cases site e s o
      exact (ih _).trans (htalks.shelf.trans hsame.shelf)
  exact hall _ s

theorem shelf_onActivated {f : Fetch ι Img} {ok : Bool} :
    (s.onActivated site e f ok).shelf = s.shelf := by
  unfold State.onActivated
  split
  · dsimp only
    split <;> rfl
  · rfl

theorem shelf_release {o : ι} : (s.release o).shelf = s.shelf := by
  unfold State.release
  split <;> rfl

theorem shelf_arrive {o : ι} : (s.arrive site e o).shelf = s.shelf := by
  unfold State.arrive
  split <;> rfl

/-- A move of the store: what a boat carries stays, and what is not aboard stays durable. -/
theorem Grounded.stored (hs : Grounded S s) (hstrict : S'.strict ↔ S.strict)
    (hlive : s'.live = s.live) (hboats : s'.boats = s.boats) (hfetches : s'.fetches = s.fetches)
    (hship : s'.ship.map Ship.items = s.ship.map Ship.items)
    (hdurable : ∀ {o image}, S.durable o image → (S.strict → ¬ s.Aboard o) →
      s.live o ≠ none ∨ s.fetching o = true → S'.durable o image)
    (hranked : ∀ {o image}, s.live o = some image → S.outranks o image → S'.outranks o image)
    (hladen : ∀ {ship}, s.ship = some ship → ∀ item ∈ ship.items,
      S.outranks item.object item.image → S'.outranks item.object item.image)
    (hlanded : ∀ {ship promoted}, s'.ship = some ship → ship.voyage = .committed promoted →
      ∀ item ∈ ship.items, (site.logPrimary = true ∨ item.object ∈ promoted) →
        ∃ item' ∈ ship.items, item'.object = item.object ∧ S'.durable item.object item'.image)
    (hriding : ∀ {ship}, s'.ship = some ship → ∀ w ∈ ship.waiters,
      ∃ ship', s.ship = some ship' ∧ w ∈ ship'.waiters)
    (htold : ∀ sent ∈ s'.outbox, Told S' sent) : Grounded S' s' := by
  have hthen {ship : Ship ι Img Sql Row} (h : s'.ship = some ship) :
      ∃ ship', s.ship = some ship' ∧ ship'.items = ship.items := by
    rw [h] at hship
    exact Option.map_eq_some_iff.mp hship.symm
  constructor
  · rw [hboats, hs.matched]
    have hmap := congrArg (Option.map (List.map ShipItem.object)) hship
    rw [Option.map_map, Option.map_map] at hmap
    exact hmap.symm
  · intro o image himage hclean
    rw [hlive] at himage
    rw [hboats] at hclean
    exact hdurable (hs.clean himage hclean) (fun _ => (unshipped_eq_false.mp hclean).2)
      (.inl (by simp [himage]))
  · intro o image himage
    rw [hlive] at himage
    exact hranked himage (hs.ranked himage)
  · intro ship h o image himage hdirty hin
    obtain ⟨ship', hship', hitems⟩ := hthen h
    rw [hlive] at himage
    rw [hboats] at hdirty
    rw [← hitems] at hin ⊢
    rw [hstrict]
    refine (hs.carried hship' himage hdirty hin).imp_right fun ⟨hloose, hgood⟩ => ⟨hloose, ?_⟩
    exact hdurable hgood (fun h => absurd h hloose) (.inl (by simp [himage]))
  · exact hlanded
  · intro ship h item hitem
    obtain ⟨ship', hship', hitems⟩ := hthen h
    rw [← hitems] at hitem
    exact hladen hship' item hitem (hs.laden hship' item hitem)
  · intro ship h
    obtain ⟨ship', hship', hitems⟩ := hthen h
    rw [← hitems]
    exact hs.level hship'
  · intro h ship hship
    obtain ⟨ship', hship', hitems⟩ := hthen hship
    rw [← hitems, hlive]
    exact hs.afloat (hstrict.mp h) hship'
  · intro f hf
    rw [hfetches] at hf
    obtain ⟨hgood, hcold⟩ := hs.fetched f hf
    have hfetching : s.fetching f.object = true := List.any_eq_true.mpr ⟨f, hf, by simp⟩
    refine ⟨hdurable hgood ?_ (.inr hfetching), fun h => ?_⟩
    · intro h haboard
      obtain ⟨ship, hship, item, hitem, ho⟩ := hs.aboard_iff.mp haboard
      obtain ⟨image, himage, -⟩ := hs.afloat h hship item hitem
      rw [ho, hcold h] at himage
      cases himage
    · rw [hlive]
      exact hcold (hstrict.mp h)
  · intro h
    rw [hfetches]
    exact hs.once (hstrict.mp h)
  · intro ship h w hw
    obtain ⟨ship', hship', hw'⟩ := hriding h w hw
    obtain ⟨ship'', hship'', hitems⟩ := hthen h
    rw [hship'] at hship''
    cases hship''
    rw [← hitems]
    exact hs.riding hship' w hw'
  · rw [hboats]
    exact hs.waiting
  · exact htold

/-- Only the store changes. -/
structure Lands (s s' : State ι Img Sql Row) : Prop where
  live : s'.live = s.live
  logSeq : s'.logSeq = s.logSeq
  boats : s'.boats = s.boats
  ship : s'.ship = s.ship
  polls : s'.polls = s.polls
  fetches : s'.fetches = s.fetches
  torn : s'.torn = s.torn
  outbox : s'.outbox = s.outbox

omit [LinearOrder ι] in
theorem Lands.refl (s : State ι Img Sql Row) : Lands s s := ⟨rfl, rfl, rfl, rfl, rfl, rfl, rfl, rfl⟩

omit [LinearOrder ι] in
theorem Lands.trans {s'' : State ι Img Sql Row} (h : Lands s s') (h' : Lands s' s'') :
    Lands s s'' where
  live := h'.live.trans h.live
  logSeq := h'.logSeq.trans h.logSeq
  boats := h'.boats.trans h.boats
  ship := h'.ship.trans h.ship
  polls := h'.polls.trans h.polls
  fetches := h'.fetches.trans h.fetches
  torn := h'.torn.trans h.torn
  outbox := h'.outbox.trans h.outbox

theorem lands_logItems (items : List (ShipItem ι Img)) (s : State ι Img Sql Row) :
    Lands s (items.foldl (fun s item => s.logged item.object item.image) s) ∧
      (items.foldl (fun s item => s.logged item.object item.image) s).promoted = s.promoted ∧
      (items.foldl (fun s item => s.logged item.object item.image) s).records = s.records ∧
      ∀ o, (items.foldl (fun s item => s.logged item.object item.image) s).committed o =
        s.committed o ++ (items.filter fun item => item.object = o).map ShipItem.image := by
  induction items generalizing s with
  | nil => exact ⟨Lands.refl s, rfl, rfl, fun o => (List.append_nil _).symm⟩
  | cons item items ih =>
    obtain ⟨hlands, hpromoted, hrecords, hcommitted⟩ := ih (s.logged item.object item.image)
    have hfirst : Lands s (s.logged item.object item.image) :=
      ⟨rfl, rfl, rfl, rfl, rfl, rfl, rfl, rfl⟩
    refine ⟨hfirst.trans hlands, hpromoted, hrecords, ?_⟩
    intro o
    refine (hcommitted o).trans ?_
    change
      Function.update s.committed item.object (s.committed item.object ++ [item.image]) o ++ _ = _
    by_cases ho : o = item.object
    · subst ho
      rw [Function.update_self, List.filter_cons_of_pos (by simp), List.map_cons,
        List.append_assoc, List.singleton_append]
    · rw [Function.update_of_ne ho, List.filter_cons_of_neg (by simpa using fun h => ho h.symm)]

theorem lands_land (items : List (ShipItem ι Img)) : Lands s (s.land site items) := by
  unfold State.land
  split
  · exact (lands_logItems items s).1
  · exact ⟨rfl, rfl, rfl, rfl, rfl, rfl, rfl, rfl⟩

theorem committed_land (hlog : site.logPrimary = true) (items : List (ShipItem ι Img)) (o : ι) :
    (s.land site items).shelf.committed o =
      s.shelf.committed o ++ (items.filter fun item => item.object = o).map ShipItem.image := by
  unfold State.land
  rw [if_pos hlog]
  exact (lands_logItems items s).2.2.2 o

theorem shelf_land_legacy (hlegacy : site.logPrimary = false) (items : List (ShipItem ι Img)) :
    (s.land site items).shelf =
      { s.shelf with records := s.shelf.records ++ [items] } := by
  unfold State.land
  rw [hlegacy]
  rfl

omit [LinearOrder ι] in
theorem foldAt_append {shelf shelf' : Shelf ι Img} {o : ι} {images : List Img}
    (h : shelf'.committed o = shelf.committed o ++ images) {seq : Nat}
    (hle : seq ≤ (shelf.committed o).length) :
    shelf'.foldAt site o seq = shelf.foldAt site o seq := by
  unfold Shelf.foldAt
  rw [h, List.take_append_of_le_length hle]

omit [LinearOrder ι] in
/-- Every committed image is the fold at its own seq. -/
theorem exists_foldAt {shelf : Shelf ι Img} {o : ι} {image : Img} (h : image ∈ shelf.committed o) :
    ∃ seq ≤ (shelf.committed o).length, shelf.foldAt site o seq = image := by
  obtain ⟨i, hlt, hi⟩ := List.mem_iff_getElem.mp h
  refine ⟨i + 1, by omega, ?_⟩
  unfold Shelf.foldAt
  rw [List.take_add_one, List.getElem?_eq_getElem hlt, hi]
  simp

/-- What was committed stays so when a record lands, and all that it carries is. -/
theorem Shelf.Committed.land {o : ι} {image : Img} (h : s.shelf.Committed site o image)
    (items : List (ShipItem ι Img)) : (s.land site items).shelf.Committed site o image := by
  unfold Shelf.Committed at h ⊢
  split
  · rename_i hlog
    rw [if_pos hlog] at h
    obtain ⟨seq, hle, hfold⟩ := h
    have hcommitted := committed_land (s := s) hlog items o
    refine ⟨seq, ?_, (foldAt_append hcommitted hle).trans hfold⟩
    rw [hcommitted, List.length_append]
    omega
  · rename_i hlegacy
    rw [if_neg hlegacy] at h
    rw [shelf_land_legacy (Bool.eq_false_iff.mpr hlegacy)]
    rcases h with hpromoted | ⟨record, hrecord, hitem⟩
    · exact .inl hpromoted
    · exact .inr ⟨record, List.mem_append_left _ hrecord, hitem⟩

theorem committed_of_land {items : List (ShipItem ι Img)} {item : ShipItem ι Img}
    (hitem : item ∈ items) : (s.land site items).shelf.Committed site item.object item.image := by
  unfold Shelf.Committed
  split
  · rename_i hlog
    refine exists_foldAt ?_
    rw [committed_land hlog]
    refine List.mem_append_right _ (List.mem_map_of_mem (List.mem_filter.mpr ⟨hitem, by simp⟩))
  · rename_i hlegacy
    rw [shelf_land_legacy (Bool.eq_false_iff.mpr hlegacy)]
    exact .inr ⟨items, List.mem_append_right _ List.mem_cons_self, item, hitem, rfl, rfl⟩

theorem Grounded.not_aboard (hs : Grounded S s) {ship : Ship ι Img Sql Row}
    (hship : s.ship = some ship) {o : ι} (h : ¬ s.Aboard o) :
    (ship.items.filter fun item => item.object = o) = [] := by
  refine List.filter_eq_nil_iff.mpr fun item hitem ho => h (hs.aboard_iff.mpr ?_)
  exact ⟨ship, hship, item, hitem, by simpa using ho⟩

/-- An object that is not aboard is as current after the record has landed. -/
theorem Grounded.current_land (hs : Grounded S s) {ship : Ship ι Img Sql Row}
    (hship : s.ship = some ship) {o : ι} {image : Img} (h : s.shelf.Current site o image)
    (haboard : ¬ s.Aboard o) : (s.land site ship.items).shelf.Current site o image := by
  have hnone := hs.not_aboard hship haboard
  cases hengine : site.logPrimary with
  | true =>
    have hcommitted := committed_land (s := s) hengine ship.items o
    rw [hnone, List.map_nil, List.append_nil] at hcommitted
    unfold Shelf.Current Shelf.foldAt at h ⊢
    rw [if_pos hengine] at h ⊢
    rw [hcommitted]
    refine ⟨h.1, fun hlegacy => ?_⟩
    rw [hengine] at hlegacy
    cases hlegacy
  | false =>
    unfold Shelf.Current Shelf.Outranks at h ⊢
    rw [shelf_land_legacy hengine]
    refine ⟨h.1, fun hlegacy record hrecord item hitem ho => ?_⟩
    rcases List.mem_append.mp hrecord with hold | hnew
    · exact h.2 hlegacy record hold item hitem ho
    · rw [List.mem_singleton.mp hnew] at hitem
      exact absurd (hs.aboard_iff.mpr ⟨ship, hship, item, hitem, ho⟩) haboard

/-- What outranks the records and the boat outranks them when the boat's record has landed. -/
theorem Shelf.Outranks.land {items : List (ShipItem ι Img)} {o : ι} {image : Img}
    (h : s.shelf.Outranks site o image)
    (hitems : ∀ item ∈ items, item.object = o →
      site.changeCounter item.image ≤ site.changeCounter image) :
    (s.land site items).shelf.Outranks site o image := by
  intro hlegacy record hrecord item hitem ho
  rw [shelf_land_legacy hlegacy] at hrecord
  rcases List.mem_append.mp hrecord with hold | hnew
  · exact h hlegacy record hold item hitem ho
  · rw [List.mem_singleton.mp hnew] at hitem
    exact hitems item hitem ho

omit [LinearOrder ι] in
theorem told_mono {sent : Sent ι Sql Row} (h : Told S sent)
    (hmono : ∀ o image, S.committed o image → S'.committed o image) : Told S' sent := by
  intro o p answer hpoll hdurable hok
  obtain ⟨image, result, hcommitted, hquery, hresults⟩ := h o p answer hpoll hdurable hok
  exact ⟨image, result, hmono o image hcommitted, hquery, hresults⟩

theorem Grounded.land_loose (hs : Grounded (Shelf.loose site s.shelf) s)
    (items : List (ShipItem ι Img)) (hunderway : ∀ {ship}, s.ship = some ship →
      ∀ promoted, ship.voyage ≠ .committed promoted) :
    Grounded (Shelf.loose site (s.land site items).shelf) (s.land site items) := by
  have hlands : Lands s (s.land site items) := lands_land items
  refine hs.stored Iff.rfl hlands.live hlands.boats hlands.fetches (by rw [hlands.ship])
    (fun h _ _ => h.land items) (fun _ _ => trivial) (fun _ _ _ _ => trivial) ?_ ?_ ?_
  · intro ship promoted hship hvoyage
    rw [hlands.ship] at hship
    exact absurd hvoyage (hunderway hship promoted)
  · intro ship hship w hw
    rw [hlands.ship] at hship
    exact ⟨ship, hship, hw⟩
  · intro sent hsent
    rw [hlands.outbox] at hsent
    exact told_mono (hs.told sent hsent) fun o image h => h.land items

theorem Grounded.land_firm (hs : Grounded (Shelf.firm site s.shelf) s) {ship : Ship ι Img Sql Row}
    (hship : s.ship = some ship) (hunderway : ∀ promoted, ship.voyage ≠ .committed promoted) :
    Grounded (Shelf.firm site (s.land site ship.items).shelf) (s.land site ship.items) := by
  have hlands : Lands s (s.land site ship.items) := lands_land ship.items
  refine hs.stored Iff.rfl hlands.live hlands.boats hlands.fetches (by rw [hlands.ship]) ?_ ?_ ?_
    ?_ ?_ ?_
  · exact fun h hashore _ => hs.current_land hship h (hashore trivial)
  · intro o image himage h
    refine h.land fun item hitem ho => ?_
    obtain ⟨image', himage', hle⟩ := hs.afloat trivial hship item hitem
    rw [ho, himage] at himage'
    cases himage'
    exact hle
  · intro ship' hship' item hitem h
    rw [hship] at hship'
    cases hship'
    refine h.land fun item' hitem' ho => ?_
    rw [hs.level hship item hitem item' hitem' ho]
  · intro ship' promoted hship' hvoyage
    rw [hlands.ship, hship] at hship'
    cases hship'
    exact absurd hvoyage (hunderway promoted)
  · intro ship' hship' w hw
    rw [hlands.ship] at hship'
    exact ⟨ship', hship', hw⟩
  · intro sent hsent
    rw [hlands.outbox] at hsent
    exact told_mono (hs.told sent hsent) fun o image h => h.land ship.items

/-- An erasure concerns no other object. -/
theorem Shelf.Current.erased {o o' : ι} {image : Img} (h : s.shelf.Current site o' image)
    (hne : o' ≠ o) (seq : Nat) : (s.erase o seq).shelf.Current site o' image := by
  have hsame : (s.erase o seq).shelf.committed o' = s.shelf.committed o' :=
    Function.update_of_ne hne _ _
  refine ⟨?_, h.2⟩
  have hcurrent := h.1
  unfold Shelf.foldAt at hcurrent ⊢
  rwa [hsame]

theorem erase_spares {o : ι} {seq : Nat} (h : s.committed o <+: (s.erase o seq).committed o) :
    s.erase o seq = s := by
  have htake : (s.erase o seq).committed o = (s.committed o).take seq := Function.update_self _ _ _
  rw [htake] at h
  have hsame : (s.committed o).take seq = s.committed o := by
    refine (h.eq_of_length_le ?_).symm
    rw [List.length_take]
    exact Nat.min_le_right _ _
  unfold State.erase
  rw [hsame, Function.update_eq_self]

/-- What clearing an entry comes to. -/
theorem clear_cases (site : Site ι Img Sql Row) (s : State ι Img Sql Row) (o : ι) :
    s.clear site o = s ∨ site.logPrimary = true ∧ ∃ items waiters rebased item,
      s.ship = some ⟨items, waiters, .failed true rebased⟩ ∧ item ∈ items ∧ item.object = o ∧
        s.clear site o = s.erase o item.expectedSeq := by
  unfold State.clear
  split
  · rename_i items waiters rebased hship
    split
    · rename_i item hfind
      split_ifs with hlog
      · refine .inr ⟨hlog, items, waiters, rebased, item, hship, ?_, ?_, rfl⟩
        · exact List.mem_of_find?_eq_some hfind
        · simpa using List.find?_some hfind
      · exact .inl rfl
    · exact .inl rfl
  · exact .inl rfl

/-- Promoting an object leaves the others alone. -/
theorem Shelf.Current.promoted {o o' : ι} {image' : Img} (h : s.shelf.Current site o' image')
    (hne : o' ≠ o) (image : Img) :
    (Shelf.mk s.committed (Function.update s.promoted o image) s.records).Current site o'
      image' := by
  refine ⟨?_, h.2⟩
  have hcurrent := h.1
  split_ifs at hcurrent ⊢
  · exact hcurrent
  · exact (Function.update_of_ne hne _ _).trans hcurrent

/-- Under the log engine all that a boat carries is current once its record has landed. -/
theorem current_of_land (hlog : site.logPrimary = true) {items : List (ShipItem ι Img)}
    {item : ShipItem ι Img} (hitem : item ∈ items) :
    ∃ item' ∈ items, item'.object = item.object ∧
      (s.land site items).shelf.Current site item.object item'.image := by
  have hmem : item ∈ items.filter fun i => i.object = item.object :=
    List.mem_filter.mpr ⟨hitem, by simp⟩
  obtain ⟨front, last, hlast⟩ : ∃ front last,
      (items.filter fun i => i.object = item.object) = front ++ [last] := by
    refine ⟨_, _, (List.dropLast_append_getLast (List.ne_nil_of_mem hmem)).symm⟩
  have hin : last ∈ items.filter fun i => i.object = item.object := by
    rw [hlast]
    exact List.mem_append_right _ List.mem_cons_self
  obtain ⟨hitems, ho⟩ := List.mem_filter.mp hin
  refine ⟨last, hitems, by simpa using ho, ?_, fun hlegacy => ?_⟩
  · rw [if_pos hlog]
    unfold Shelf.foldAt
    rw [List.take_length, committed_land hlog, hlast, List.map_append, ← List.append_assoc]
    simp
  · rw [hlog] at hlegacy
    cases hlegacy

/-- The ship task answers its waiters, and is where its voyage has got to. -/
theorem Grounded.voyage (hs : Grounded S s) {items : List (ShipItem ι Img)}
    {waiters : List (Waiter ι Sql Row)} {voyage voyage' : Voyage ι}
    {sents : List (Sent ι Sql Row)} (hship : s.ship = some ⟨items, waiters, voyage⟩)
    (hlanded : ∀ promoted, voyage' = .committed promoted → ∀ item ∈ items,
      (site.logPrimary = true ∨ item.object ∈ promoted) →
        ∃ item' ∈ items, item'.object = item.object ∧ S.durable item.object item'.image)
    (hsents : ∀ sent ∈ sents, Told S sent) :
    Grounded S { s with ship := some ⟨items, [], voyage'⟩, outbox := s.outbox ++ sents } := by
  refine hs.stored Iff.rfl rfl rfl rfl (by rw [hship]; rfl) (fun h _ _ => h) (fun _ h => h)
    (fun _ _ _ h => h) ?_ ?_ ?_
  · rintro ship promoted ⟨⟩ hvoyage
    exact hlanded promoted hvoyage
  · rintro ship ⟨⟩ w hw
    cases hw
  · intro sent hsent
    rcases List.mem_append.mp hsent with hold | hnew
    · exact hs.told sent hold
    · exact hsents sent hnew

omit [LinearOrder ι] in
theorem Rides.told {items : List (ShipItem ι Img)} {w : Waiter ι Sql Row}
    (h : Rides site items w)
    (hcommitted : ∀ item ∈ items, S.committed item.object item.image) :
    Told S ⟨w.1, .ok w.2⟩ := by
  intro o p answer hpoll _ hok
  cases hok
  obtain ⟨image, result, ⟨item, hitem, rfl, rfl⟩, hquery, hresults⟩ := h o p hpoll
  exact ⟨item.image, result, hcommitted item hitem, hquery, hresults⟩

section Engines

variable {firmly : Bool}

theorem Grounded.land (hs : Grounded (s.shelf.standard site firmly) s) {ship : Ship ι Img Sql Row}
    (hship : s.ship = some ship) (hunderway : ∀ promoted, ship.voyage ≠ .committed promoted) :
    Grounded ((s.land site ship.items).shelf.standard site firmly) (s.land site ship.items) := by
  cases firmly with
  | true => exact Grounded.land_firm hs hship hunderway
  | false =>
    refine Grounded.land_loose hs ship.items fun hship' => ?_
    rw [hship] at hship'
    cases hship'
    exact hunderway

theorem durable_of_land (hlog : site.logPrimary = true) {items : List (ShipItem ι Img)}
    {item : ShipItem ι Img} (hitem : item ∈ items) :
    ∃ item' ∈ items, item'.object = item.object ∧
      ((s.land site items).shelf.standard site firmly).durable item.object item'.image := by
  obtain ⟨item', hitem', ho, hcurrent⟩ := current_of_land (s := s) hlog hitem
  refine ⟨item', hitem', ho, ?_⟩
  cases firmly with
  | true => exact hcurrent
  | false => exact hcurrent.committed

theorem Grounded.commit (hs : Grounded (s.shelf.standard site firmly) s) :
    Grounded ((s.commit site).shelf.standard site firmly) (s.commit site) := by
  unfold State.commit
  split
  · rename_i items waiters hship
    split
    · have hlanded := hs.land hship fun promoted h => by cases h
      have hlands : Lands s (s.land site items) := lands_land items
      refine hlanded.voyage (hlands.ship.trans hship) ?_ ?_
      · rintro promoted ⟨⟩ item hitem (hlog | hnone)
        · exact durable_of_land hlog hitem
        · cases hnone
      · intro sent hsent
        obtain ⟨w, hw, rfl⟩ := List.mem_map.mp hsent
        refine (hs.riding hship w hw).told fun item hitem => ?_
        rw [Shelf.standard_committed]
        exact committed_of_land hitem
    · exact hs
  · exact hs

theorem Grounded.fail (hs : Grounded (s.shelf.standard site firmly) s) (landed : Bool)
    (rebased : Option ι) (msg : String) :
    Grounded ((s.fail site landed rebased msg).shelf.standard site firmly)
      (s.fail site landed rebased msg) := by
  unfold State.fail
  split
  · rename_i items waiters hship
    have hlands : Lands s (s.land site items) := lands_land items
    have hsents {sent : Sent ι Sql Row} {error : ApiError} {S : Standard site}
        (h : sent ∈ (waiters.map Prod.fst).map fun a => ⟨a, .error error⟩) : Told S sent := by
      obtain ⟨asker, -, rfl⟩ := List.mem_map.mp h
      exact told_error
    dsimp only
    split
    · have hlanded := hs.land hship fun promoted h => by cases h
      exact hlanded.voyage (hlands.ship.trans hship) (fun promoted h => by cases h)
        fun sent => hsents
    · exact hs.voyage hship (fun promoted h => by cases h) fun sent => hsents
  · exact hs

/-- What a boat has promoted is durable again: until then the boat alone has it. -/
theorem Grounded.promote (hs : Grounded (s.shelf.standard site firmly) s)
    (hloose : firmly = false → site.logPrimary = true) (houtbox : s.outbox = []) (o : ι) :
    Grounded ((s.promote site o).shelf.standard site firmly) (s.promote site o) := by
  unfold State.promote
  split
  · rename_i items waiters promoted hship
    split
    · rename_i item hfind
      split
      · exact hs
      · rename_i hskip
        have hlegacy : site.logPrimary = false := by
          cases hengine : site.logPrimary with
          | false => rfl
          | true => exact absurd (by simp [hengine]) hskip
        have hfirm : firmly = true := by
          by_contra hnot
          rw [hloose (by simpa using hnot)] at hlegacy
          cases hlegacy
        subst hfirm
        have hitem : item ∈ items := List.mem_of_find?_eq_some hfind
        have ho : item.object = o := by simpa using List.find?_some hfind
        have haboard : s.Aboard o := hs.aboard_iff.mpr ⟨_, hship, item, hitem, ho⟩
        refine hs.stored Iff.rfl rfl rfl rfl (by rw [hship]; rfl) ?_ (fun _ h => h)
          (fun _ _ _ h => h) ?_ ?_ ?_
        · intro o' image h hashore _
          exact h.promoted (fun heq => hashore trivial (heq ▸ haboard)) item.image
        · rintro ship promoted' ⟨⟩ ⟨⟩ item' hitem' (hlog | hin)
          · rw [hlegacy] at hlog
            cases hlog
          by_cases heq : item'.object = o
          · refine ⟨item, hitem, ho.trans heq.symm, ?_, ?_⟩
            · rw [if_neg (by simp [hlegacy])]
              change Function.update s.promoted o item.image item'.object = item.image
              rw [heq, Function.update_self]
            · have hladen := hs.laden hship item hitem
              rw [ho] at hladen
              rw [heq]
              exact hladen
          · obtain ⟨item'', hitem'', ho'', hdurable⟩ := hs.landed hship rfl item' hitem'
              (.inr (List.mem_of_ne_of_mem heq hin))
            exact ⟨item'', hitem'', ho'', Shelf.Current.promoted hdurable heq item.image⟩
        · rintro ship ⟨⟩ w hw
          exact ⟨_, hship, hw⟩
        · intro sent hsent
          have hnone : sent ∈ s.outbox := hsent
          rw [houtbox] at hnone
          cases hnone
    · exact hs
  · exact hs

/-- Only what is promoted changes, and that only to a higher change counter. -/
theorem lands_promoteStaged (items : List (ShipItem ι Img)) (s : State ι Img Sql Row) :
    Lands s (items.foldl (State.promoteStaged site) s) ∧
      (items.foldl (State.promoteStaged site) s).committed = s.committed ∧
      (items.foldl (State.promoteStaged site) s).records = s.records ∧
      ∀ o, (∀ item ∈ items, item.object = o →
          site.changeCounter item.image ≤ site.changeCounter (s.promoted o)) →
        (items.foldl (State.promoteStaged site) s).promoted o = s.promoted o := by
  induction items generalizing s with
  | nil => exact ⟨Lands.refl s, rfl, rfl, fun _ _ => rfl⟩
  | cons item items ih =>
    rw [List.foldl_cons]
    unfold State.promoteStaged
    split
    · obtain ⟨hlands, hcommitted, hrecords, hpromoted⟩ := ih s
      exact ⟨hlands, hcommitted, hrecords, fun o h => hpromoted o fun i hi => h i (.tail _ hi)⟩
    · rename_i hlt
      obtain ⟨hlands, hcommitted, hrecords, hpromoted⟩ := ih { s with
        promoted := Function.update s.promoted item.object item.image }
      have hfirst : Lands s { s with
          promoted := Function.update s.promoted item.object item.image } :=
        ⟨rfl, rfl, rfl, rfl, rfl, rfl, rfl, rfl⟩
      refine ⟨hfirst.trans hlands, hcommitted, hrecords, fun o h => ?_⟩
      have hne : o ≠ item.object := by
        rintro rfl
        exact hlt (h item List.mem_cons_self rfl)
      have hsame : Function.update s.promoted item.object item.image o = s.promoted o :=
        Function.update_of_ne hne _ _
      refine (hpromoted o fun i hi ho => ?_).trans hsame
      change _ ≤ site.changeCounter (Function.update s.promoted item.object item.image o)
      rw [hsame]
      exact h i (.tail _ hi) ho

/-- What rolling records forward comes to: those that touch the object are gone, and what is current
is as current as it was. -/
theorem lands_recoverTouching (site : Site ι Img Sql Row) (s : State ι Img Sql Row) (o : ι) :
    Lands s (s.recoverTouching site o) ∧
    (s.recoverTouching site o).committed = s.committed ∧
    (∀ record ∈ (s.recoverTouching site o).records, record ∈ s.records ∧
      (site.logPrimary = false → ∀ item ∈ record, item.object ≠ o)) ∧
    ∀ {o' image}, s.shelf.Current site o' image →
      (s.recoverTouching site o).shelf.Current site o' image := by
  unfold State.recoverTouching
  split
  · rename_i hlog
    refine ⟨Lands.refl s, rfl, fun record h => ⟨h, fun hlegacy => ?_⟩, fun h => h⟩
    rw [hlog] at hlegacy
    cases hlegacy
  · rename_i hlegacy
    rw [List.partition_eq_filter_filter]
    dsimp only
    generalize htouching :
      (s.records.filter fun record => record.any fun i => decide (i.object = o)) = touching
    generalize hothers :
      s.records.filter (not ∘ fun record => record.any fun i => decide (i.object = o)) = others
    obtain ⟨hlands, hcommitted, hrecords, hpromoted⟩ :=
      lands_promoteStaged touching.flatten { s with records := others }
    have hfirst : Lands s { s with records := others } := ⟨rfl, rfl, rfl, rfl, rfl, rfl, rfl, rfl⟩
    refine ⟨hfirst.trans hlands, hcommitted, ?_, ?_⟩
    · intro record hrecord
      rw [hrecords] at hrecord
      subst hothers
      obtain ⟨hin, hnot⟩ := List.mem_filter.mp hrecord
      refine ⟨hin, fun _ item hitem ho => ?_⟩
      have hany : (record.any fun i => decide (i.object = o)) = true :=
        List.any_eq_true.mpr ⟨item, hitem, decide_eq_true ho⟩
      simp [hany] at hnot
    · rintro o' image ⟨hcurrent, houtranks⟩
      rw [if_neg hlegacy] at hcurrent
      refine ⟨?_, fun hengine record hrecord => ?_⟩
      · rw [if_neg hlegacy]
        refine Eq.trans (hpromoted o' fun item hitem ho => ?_) hcurrent
        subst htouching
        obtain ⟨record, hrecord, hin⟩ := List.mem_flatten.mp hitem
        have hbound := houtranks (by simpa using hlegacy) record (List.mem_filter.mp hrecord).1
          item hin ho
        rwa [← hcurrent] at hbound
      · have hin : record ∈ others := (congrArg (record ∈ ·) hrecords).mp hrecord
        subst hothers
        exact houtranks hengine record (List.mem_filter.mp hin).1

/-- A move of the store under which what is durable stays durable, aboard or not. -/
theorem Grounded.shelved (hs : Grounded S s) (hlands : Lands s s') (hstrict : S'.strict ↔ S.strict)
    (hdurable : ∀ {o image}, S.durable o image → S'.durable o image)
    (houtranks : ∀ {o image}, S.outranks o image → S'.outranks o image)
    (houtbox : s.outbox = []) : Grounded S' s' := by
  refine hs.stored hstrict hlands.live hlands.boats hlands.fetches (by rw [hlands.ship])
    (fun h _ _ => hdurable h) (fun _ h => houtranks h) (fun _ _ _ h => houtranks h) ?_ ?_ ?_
  · intro ship promoted hship hvoyage item hitem hin
    rw [hlands.ship] at hship
    obtain ⟨item', hitem', ho, hgood⟩ := hs.landed hship hvoyage item hitem hin
    exact ⟨item', hitem', ho, hdurable hgood⟩
  · intro ship hship w hw
    rw [hlands.ship] at hship
    exact ⟨ship, hship, hw⟩
  · intro sent hsent
    rw [hlands.outbox, houtbox] at hsent
    cases hsent

theorem Grounded.recoverTouching (hs : Grounded (s.shelf.standard site firmly) s)
    (hloose : firmly = false → site.logPrimary = true) (houtbox : s.outbox = []) (o : ι) :
    Grounded ((s.recoverTouching site o).shelf.standard site firmly)
      (s.recoverTouching site o) := by
  obtain ⟨hlands, hcommitted, hrecords, hcurrent⟩ := lands_recoverTouching site s o
  cases firmly with
  | true =>
    refine Grounded.shelved hs hlands Iff.rfl hcurrent (fun h hlegacy record hrecord => ?_) houtbox
    exact h hlegacy record (hrecords record hrecord).1
  | false =>
    refine Grounded.shelved hs hlands Iff.rfl (fun {o' image} h => ?_) (fun h => h) houtbox
    change Shelf.Committed site _ o' image at h ⊢
    unfold Shelf.Committed Shelf.foldAt at h ⊢
    rw [if_pos (hloose rfl)] at h ⊢
    change ∃ seq ≤ ((s.recoverTouching site o).committed o').length,
      (((s.recoverTouching site o).committed o').take seq).getLast?.getD site.blank = image
    rw [hcommitted]
    exact h

theorem Grounded.forget (hs : Grounded (s.shelf.standard site firmly) s)
    (hloose : firmly = false → site.logPrimary = true) (houtbox : s.outbox = []) (i : Nat) :
    Grounded ((s.forget site i).shelf.standard site firmly) (s.forget site i) := by
  unfold State.forget
  split
  · exact hs
  · split
    · have hlands : Lands s { s with records := s.records.eraseIdx i } :=
        ⟨rfl, rfl, rfl, rfl, rfl, rfl, rfl, rfl⟩
      have hsub {record : List (ShipItem ι Img)} (h : record ∈ s.records.eraseIdx i) :
          record ∈ s.records := List.mem_of_mem_eraseIdx h
      cases firmly with
      | true =>
        refine Grounded.shelved hs hlands Iff.rfl ?_ ?_ houtbox
        · exact fun h => ⟨h.1, fun hlegacy record hrecord => h.2 hlegacy record (hsub hrecord)⟩
        · exact fun h hlegacy record hrecord => h hlegacy record (hsub hrecord)
      | false =>
        refine Grounded.shelved hs hlands Iff.rfl (fun {o' image} h => ?_) (fun h => h) houtbox
        change Shelf.Committed site _ o' image at h ⊢
        unfold Shelf.Committed at h ⊢
        rw [if_pos (hloose rfl)] at h ⊢
        exact h
    · exact hs

theorem Grounded.peer (hs : Grounded (s.shelf.standard site firmly) s)
    (hloose : firmly = false → site.logPrimary = true)
    (hfirm : firmly = true → site.logPrimary = false) (houtbox : s.outbox = []) (o : ι)
    (image : Img) :
    Grounded ((s.peer site o image).shelf.standard site firmly) (s.peer site o image) := by
  unfold State.peer
  cases firmly with
  | false =>
    have hlog := hloose rfl
    rw [if_pos hlog]
    have hlands : Lands s (s.logged o image) := ⟨rfl, rfl, rfl, rfl, rfl, rfl, rfl, rfl⟩
    refine Grounded.shelved hs hlands Iff.rfl (fun {o' image'} h => ?_) (fun h => h) houtbox
    have hland : s.logged o image = s.land site [⟨o, image, 0⟩] := by
      unfold State.land
      rw [if_pos hlog]
      rfl
    rw [hland]
    exact Shelf.Committed.land h _
  | true =>
    have hlegacy := hfirm rfl
    rw [if_neg (by simp [hlegacy])]
    split
    · exact hs
    · rename_i habsent
      obtain ⟨⟨hcold, hclean⟩, hunfetched⟩ :
          (s.live o = none ∧ s.boats.unshipped o = false) ∧ s.fetching o = false := by
        simpa using habsent
      refine hs.stored Iff.rfl rfl rfl rfl rfl ?_ (fun _ h => h) (fun _ _ _ h => h) ?_ ?_ ?_
      · intro o' image' h _ hhere
        refine Shelf.Current.promoted h ?_ image
        rintro rfl
        rcases hhere with hlive | hfetching
        · exact hlive hcold
        · rw [hunfetched] at hfetching
          cases hfetching
      · intro ship promoted hship hvoyage item hitem hin
        obtain ⟨item', hitem', ho, hgood⟩ := hs.landed hship hvoyage item hitem hin
        refine ⟨item', hitem', ho, Shelf.Current.promoted hgood ?_ image⟩
        rintro rfl
        exact (unshipped_eq_false.mp hclean).2 (hs.aboard_iff.mpr ⟨ship, hship, item, hitem, rfl⟩)
      · exact fun hship w hw => ⟨_, hship, hw⟩
      · intro sent hsent
        have hnone : sent ∈ s.outbox := hsent
        rw [houtbox] at hnone
        cases hnone

/-- Only entries of the boat are cleared, and its objects are not clean. -/
theorem Grounded.clear (hs : Grounded (s.shelf.standard site firmly) s)
    (hkeeps : firmly = false → ∀ o', s.committed o' <+: (s.clear site o).committed o')
    (houtbox : s.outbox = []) :
    Grounded ((s.clear site o).shelf.standard site firmly) (s.clear site o) := by
  obtain heq | ⟨-, items, waiters, rebased, item, hship, hitem, ho, heq⟩ := clear_cases site s o
  · rwa [heq]
  · rw [heq] at hkeeps ⊢
    cases firmly with
    | false => rwa [erase_spares (hkeeps rfl o)]
    | true =>
      have haboard : s.Aboard o := hs.aboard_iff.mpr ⟨_, hship, item, hitem, ho⟩
      refine hs.stored Iff.rfl rfl rfl rfl rfl ?_ (fun _ h => h) (fun _ _ _ h => h) ?_ ?_ ?_
      · intro o' image h hashore _
        refine Shelf.Current.erased h ?_ _
        rintro rfl
        exact hashore trivial haboard
      · intro ship promoted hship' hvoyage
        have hsame : some ship = some ⟨items, waiters, .failed true rebased⟩ :=
          hship'.symm.trans hship
        cases hsame
        cases hvoyage
      · exact fun hship' w hw => ⟨_, hship', hw⟩
      · intro sent hsent
        have hnone : sent ∈ s.outbox := hsent
        rw [houtbox] at hnone
        cases hnone

theorem Grounded.peerClear (hs : Grounded (s.shelf.standard site firmly) s)
    (hfirm : firmly = true → site.logPrimary = false) {seq : Nat}
    (hkeeps : firmly = false → ∀ o', s.committed o' <+: (s.peerClear site o seq).committed o') :
    Grounded ((s.peerClear site o seq).shelf.standard site firmly) (s.peerClear site o seq) := by
  unfold State.peerClear at hkeeps ⊢
  cases firmly with
  | false =>
    split
    · rename_i hlog
      rw [if_pos hlog] at hkeeps
      rwa [erase_spares (hkeeps rfl o)]
    · exact hs
  | true =>
    rw [if_neg (by simp [hfirm rfl])]
    exact hs

/-- The head of a cold object's queue sends for what is current. -/
theorem Grounded.startFetch (hs : Grounded (s.shelf.standard site firmly) s)
    (hloose : firmly = false → site.logPrimary = true) (houtbox : s.outbox = []) (o : ι)
    (halone : firmly = true → site.logPrimary = true → s.fetching o = false)
    (hwhole : firmly = true → site.logPrimary = true → e.Whole) :
    Grounded ((s.startFetch site e o).shelf.standard site firmly) (s.startFetch site e o) := by
  unfold State.startFetch
  split
  · exact hs
  · rename_i hskip
    have hrecovered := hs.recoverTouching hloose houtbox o
    obtain ⟨hlands, hcommitted, hrecords, -⟩ := lands_recoverTouching site s o
    generalize s.recoverTouching site o = next at hrecovered hlands hcommitted hrecords ⊢
    have hcold : s.live o = none := by
      cases hlive : s.live o with
      | none => rfl
      | some image => exact absurd (by simp [hlive]) hskip
    have hunfetched (hfirm : firmly = true) : s.fetching o = false := by
      cases hlog : site.logPrimary with
      | true => exact halone hfirm hlog
      | false =>
        cases hfetching : s.fetching o with
        | false => rfl
        | true => exact absurd (by simp [hlog, hfetching]) hskip
    have hgood : (next.shelf.standard site firmly).durable o
        (next.durable site o ((e.folds o).getD 0)) := by
      unfold State.durable
      split
      · rename_i hlog
        cases hengine : firmly with
        | false => exact fold_committed hlog o _
        | true =>
          have hnothing : (e.folds o).getD 0 = 0 := by
            cases hread : e.folds o with
            | none => rfl
            | some missed => exact hwhole hengine hlog o missed (.inl hread)
          rw [hnothing]
          exact fold_current hlog o
      · rename_i hlegacy
        have hcurrent : next.shelf.Current site o (next.promoted o) := by
          refine ⟨if_neg hlegacy, fun hengine record hrecord item hitem ho => ?_⟩
          exact absurd ho ((hrecords record hrecord).2 hengine item hitem)
        cases firmly with
        | true => exact hcurrent
        | false => exact hcurrent.committed
    refine { hrecovered with fetched := ?_, once := ?_ }
    · intro f hf
      rcases List.mem_append.mp hf with hold | hnew
      · exact hrecovered.fetched f hold
      · rw [List.mem_singleton.mp hnew]
        exact ⟨hgood, fun _ => (congrFun hlands.live o).trans hcold⟩
    · intro h
      have hnot := hunfetched (Shelf.standard_strict site _ h)
      change ((next.fetches ++ [_]).map Fetch.object).Nodup
      rw [List.map_append]
      refine List.Nodup.append (hrecovered.once h) (List.nodup_singleton _) ?_
      intro o' hin hsame
      rw [List.mem_singleton.mp hsame] at hin
      obtain ⟨f, hf, ho⟩ := List.mem_map.mp hin
      rw [hlands.fetches] at hf
      have hfetching : s.fetching o = true := List.any_eq_true.mpr ⟨f, hf, decide_eq_true ho⟩
      rw [hnot] at hfetching
      cases hfetching

/-- What happens to a worker that owns its objects alone. The head of an object's queue waits for
the object's fetch, so that no transaction runs and no second fetch starts while one is out. -/
def Alone (s : State ι Img Sql Row) : Move ι Img Sql → Prop
  | .run t => ∀ o ∈ t.participants, s.fetching o = false
  | .startFetch o => s.fetching o = false
  | .release _ => False
  | .arrive _ => False
  | .peer _ _ => False
  | .peerClear _ _ => False
  | _ => True

theorem Grounded.handle {next : State ι Img Sql Row}
    (hs : Grounded (s.shelf.standard site firmly) s)
    (ht : firmly = true → (s.handle next).torn = false) (hshelf : next.shelf = s.shelf)
    (hnext : (firmly = true → next.torn = false) →
      Grounded (s.shelf.standard site firmly) next) :
    Grounded ((s.handle next).shelf.standard site firmly) (s.handle next) := by
  unfold State.handle at ht ⊢
  split
  · exact hs
  · rename_i hrunning
    rw [hshelf]
    refine hnext fun hfirm => ?_
    have htorn := ht hfirm
    rwa [if_neg hrunning] at htorn

theorem Grounded.quiet (hs : Grounded S s) : Grounded S { s with outbox := [] } :=
  hs.tame (Talks.tame ⟨rfl, rfl, rfl, rfl, rfl, rfl, rfl, rfl, rfl⟩ fun _ h => by cases h)

theorem Grounded.step (hs : Grounded (s.shelf.standard site firmly) s)
    (hloose : firmly = false → site.logPrimary = true) (m : Move ι Img Sql × Env ι)
    (ht : firmly = true → (s.step site m).torn = false)
    (halone : firmly = true → site.logPrimary = true → Alone s m.1)
    (hwhole : firmly = true → site.logPrimary = true → m.2.Whole)
    (hkeeps : firmly = false → KeepsEntries site s m)
    (hcurrent : firmly = true → site.logPrimary = true → Abreast s (s.polls.map Prod.fst)) :
    Grounded ((s.step site m).shelf.standard site firmly) (s.step site m) := by
  obtain ⟨move, e⟩ := m
  replace hs : Grounded (s.shelf.standard site firmly) { s with outbox := [] } := hs.quiet
  have hstrict : (s.shelf.standard site firmly).strict → firmly = true :=
    Shelf.standard_strict site _
  have hfold : FoldsDurable (s.shelf.standard site firmly) e { s with outbox := [] } := by
    intro hlog o missed hread
    cases firmly with
    | false => exact fold_committed hlog o missed
    | true =>
      rw [hwhole rfl hlog o missed hread]
      exact fold_current hlog o
  unfold KeepsEntries at hkeeps
  unfold State.step at ht hkeeps ⊢
  cases move with
  | run t =>
    refine hs.handle ht shelf_runAndComplete fun htorn => ?_
    refine hs.runAndComplete (fun h => htorn (hstrict h)) hfold fun h hlog f hf hin => ?_
    have hnot := halone (hstrict h) hlog f.object hin
    have hfetching : s.fetching f.object = true := List.any_eq_true.mpr ⟨f, hf, by simp⟩
    rw [hnot] at hfetching
    cases hfetching
  | startFetch o => exact hs.startFetch hloose rfl o halone hwhole
  | activated i ok =>
    dsimp only at ht ⊢
    split
    · exact hs
    · rename_i f hf
      rw [hf] at ht
      exact hs.handle ht shelf_onActivated fun _ => hs.onActivated hf
  | shipDone =>
    refine hs.handle ht shelf_onShipDone fun htorn => ?_
    exact hs.onShipDone fun h => htorn (hstrict h)
  | shutdown =>
    refine hs.handle ht (talks_finishClosing.shelf.trans shelf_maybeLaunch) fun htorn => ?_
    exact hs.shutdown fun h => htorn (hstrict h)
  | shed => exact hs.handle ht rfl fun _ => hs.tame tame_shed
  | recheckPolls =>
    refine hs.handle ht shelf_recheckPolls fun _ => ?_
    exact hs.recheckPolls hfold fun h hlog => hcurrent (hstrict h) hlog
  | cancelPoll o conn frame => exact hs.handle ht rfl fun _ => hs.cancelPoll o conn frame
  | release o => exact hs.handle ht shelf_release fun _ => hs.tame tame_release
  | arrive o =>
    refine hs.handle ht shelf_arrive fun _ => hs.tame (tame_arrive fun h => ?_)
    cases hlog : site.logPrimary with
    | false => rfl
    | true => exact (halone (hstrict h) hlog).elim
  | commit => exact hs.commit
  | fail landed rebased msg => exact hs.fail landed rebased msg
  | clear o => exact hs.clear hkeeps rfl
  | promote o => exact hs.promote hloose rfl o
  | recover o => exact hs.recoverTouching hloose rfl o
  | forget i => exact hs.forget hloose rfl i
  | peer o image =>
    refine hs.peer hloose (fun hfirm => ?_) rfl o image
    cases hlog : site.logPrimary with
    | false => rfl
    | true => exact (halone hfirm hlog).elim
  | peerClear o seq =>
    refine hs.peerClear (fun hfirm => ?_) hkeeps
    cases hlog : site.logPrimary with
    | false => rfl
    | true => exact (halone hfirm hlog).elim

end Engines

/-- A worker that starts on what the store holds. -/
def State.boot (shelf : Shelf ι Img) : State ι Img Sql Row :=
  { committed := shelf.committed, promoted := shelf.promoted, records := shelf.records }

theorem Grounded.boot (shelf : Shelf ι Img) (S : Standard site) :
    Grounded S (State.boot shelf : State ι Img Sql Row) := by
  constructor
  · rfl
  · intro o image h
    cases h
  · intro o image h
    cases h
  · intro ship h
    cases h
  · intro ship promoted h
    cases h
  · intro ship h
    cases h
  · intro ship h
    cases h
  · intro _ ship h
    cases h
  · intro f h
    cases h
  · exact fun _ => List.nodup_nil
  · intro ship h
    cases h
  · intro txn h
    cases h
  · intro sent h
    cases h

/-- No revert takes along an object that a boat is carrying. -/
def SparesBoats (site : Site ι Img Sql Row) (s : State ι Img Sql Row)
    (m : Move ι Img Sql × Env ι) : Prop := (s.step site m).torn = false

/-- Whatever a durable poll is told was computed on a committed image. -/
def Delivers (site : Site ι Img Sql Row) (s : State ι Img Sql Row) : Prop :=
  ∀ sent ∈ s.outbox, ∀ o p answer, sent.asker.poll = some (o, p) → p.durable = true →
    sent.answer = .ok answer → ComputedOn site (s.shelf.Committed site o) p.sql answer

theorem Grounded.delivers {firmly : Bool} (hs : Grounded (s.shelf.standard site firmly) s) :
    Delivers site s := by
  intro sent hsent o p answer hpoll hdurable hok
  have htold := hs.told sent hsent o p answer hpoll hdurable hok
  rwa [Shelf.standard_committed] at htold

/-- A durable delivery never un-happens: under the log engine as long as no committed entry is
erased, under the legacy engine as long as no revert takes along an object that a boat is carrying.
-/
theorem durable_polls_delivered (site : Site ι Img Sql Row) (shelf : Shelf ι Img)
    (moves : List (Move ι Img Sql × Env ι))
    (h : Runs.Guarded (State.step site) (fun s m =>
      (site.logPrimary = true → KeepsEntries site s m) ∧
        (site.logPrimary = false → SparesBoats site s m)) (State.boot shelf) moves) :
    Runs.Throughout (State.step site) (Delivers site) (State.boot shelf) moves := by
  have hboot : Grounded ((State.boot shelf : State ι Img Sql Row).shelf.standard site
      (!site.logPrimary)) (State.boot shelf) := Grounded.boot shelf _
  have hlegacy (hfirm : (!site.logPrimary) = true) : site.logPrimary = false := by simpa using hfirm
  have hnever (hfirm : (!site.logPrimary) = true) (hlog : site.logPrimary = true) : False := by
    rw [hlegacy hfirm] at hlog
    cases hlog
  refine h.throughout (I := fun s => Grounded (s.shelf.standard site (!site.logPrimary)) s) ?_
    (fun s hs => hs.delivers) hboot
  rintro s m hs ⟨hkeeps, hspares⟩
  refine hs.step (fun hloose => by simpa using hloose) m (fun hfirm => hspares (hlegacy hfirm))
    (fun hfirm hlog => (hnever hfirm hlog).elim) (fun hfirm hlog => (hnever hfirm hlog).elim)
    (fun hloose => hkeeps (by simpa using hloose)) (fun hfirm hlog => (hnever hfirm hlog).elim)

section Demo

/-- An image is a number, which the one write raises and the one query returns unless it is zero. -/
def tally : Sqlite Nat Bool Nat where
  readonly sql := !sql
  query image _ := .ok (.rows (if image = 0 then [] else [image]))
  exec image sql := .ok (.affected 1, if sql then image + 1 else image)
  blank := 0
  changeCounter := id
  pollHash _ := ""
  exec_writes {image sql result image'} h := by
    cases sql with
    | false =>
      cases h
      exact .inl rfl
    | true =>
      cases h
      exact .inr (Nat.lt_succ_self image)

/-- A worker of either engine, whose boats take one object each. -/
def station (logPrimary : Bool) : Site Nat Nat Bool Nat :=
  { tally with
    logPrimary
    maxBoatBytes := 1
    maxUnshipped := 100
    system := fun _ => false
    name := toString }

/-- A durable poll on an object. -/
def waitFor (o : Nat) (durable : Bool) : Txn Nat Bool where
  txn := o
  participants := [o]
  ops := [⟨o, false⟩]
  readOnly := true
  optimistic := false
  poll := some ⟨durable, none, 0, o⟩
  resp := o
  single _ := ⟨⟨o, false⟩, rfl, rfl, rfl⟩

/-- A write to each of the objects. -/
def raise (objects : List Nat) : Txn Nat Bool where
  txn := 0
  participants := objects
  ops := objects.map fun o => ⟨o, true⟩
  readOnly := false
  optimistic := true
  poll := none
  resp := 100
  single := nofun

def fair : Env Nat := { bytes := fun _ => 1 }

/-- A durable poll waits on object 0, a write to it goes out, and its record has landed. -/
def riding : List (Move Nat Nat Bool × Env Nat) :=
  [(.startFetch 0, fair), (.activated 0 true, fair), (.run (waitFor 0 true), fair),
    (.run (raise [0]), fair), (.commit, fair)]

/-- The poll that rides the boat is told what the boat carries. -/
theorem durable_polls_delivered_riding :
    Runs.Throughout (State.step (station false)) (Delivers (station false))
      (State.boot ⟨fun _ => [], fun _ => 0, []⟩) riding := by
  have hlegacy {s : State Nat Nat Bool Nat} {m : Move Nat Nat Bool × Env Nat}
      (hspares : SparesBoats (station false) s m) :
      ((station false).logPrimary = true → KeepsEntries (station false) s m) ∧
        ((station false).logPrimary = false → SparesBoats (station false) s m) := by
    refine ⟨fun hlog => ?_, fun _ => hspares⟩
    cases hlog
  exact durable_polls_delivered (station false) _ riding
    ⟨hlegacy rfl, hlegacy rfl, hlegacy rfl, hlegacy rfl, hlegacy rfl, trivial⟩

/-- As `Delivers`, were the image promoted last the only committed one. -/
def DeliversPromoted (site : Site ι Img Sql Row) (s : State ι Img Sql Row) : Prop :=
  ∀ sent ∈ s.outbox, ∀ o p answer, sent.asker.poll = some (o, p) → p.durable = true →
    sent.answer = .ok answer → ComputedOn site (fun image => image = s.promoted o) p.sql answer

/-- The poll is told before anything has been promoted. -/
theorem rider_told_before_promotion :
    ¬ Runs.Throughout (State.step (station false)) (DeliversPromoted (station false))
      (State.boot ⟨fun _ => [], fun _ => 0, []⟩) riding := by
  have houtbox : (Runs.run (State.step (station false)) (State.boot ⟨fun _ => [], fun _ => 0, []⟩)
      riding).outbox = [⟨State.pollAsker 0 ⟨0, 0, false, true, none, 0⟩,
        .ok ⟨.poll 0, [.rows [1]], some ""⟩⟩] := rfl
  have hpromoted : (Runs.run (State.step (station false))
      (State.boot ⟨fun _ => [], fun _ => 0, []⟩) riding).promoted 0 = 0 := rfl
  intro h
  have htold := h.last
  unfold DeliversPromoted at htold
  rw [houtbox] at htold
  obtain ⟨image, result, himage, hquery, hresults⟩ :=
    htold _ List.mem_cons_self 0 _ _ rfl rfl rfl
  rw [himage, hpromoted] at hquery
  cases hquery
  cases hresults

end Demo

end Fafo.Polls
