import Fafo.Library.Runs
import Fafo.Snapshots

/-! Snapshots extend what is committed, as long as no activation overtakes its object's boat. -/
namespace Fafo.Snapshots

variable {ι : Type} [DecidableEq ι] {site : Site ι} {e : Env ι} {s s' s'' : State ι}

/-- What is committed extends what was committed before; and what the boat in flight carries extends
the committed image at the seq it builds on. -/
structure Kept (s : State ι) : Prop where
  committed : ∀ o seq image next, imageAt (s.log o) seq = some image →
    imageAt (s.log o) (seq + 1) = some next → image <+: next
  handed : ∀ ship, s.ship = some ship → ∀ item ∈ ship.items,
    ∃ base, imageAt (s.log item.object) item.expectedSeq = some base ∧ base <+: item.image

/-- When a boat has landed, none of its objects is live through an activation that came in while the
boat was in flight. -/
def Undisturbed (s : State ι) (m : Move ι × Env ι) : Prop :=
  match m.1 with
  | .shipDone => ∀ ship, s.ship = some ship → ship.phase = .done true →
      ∀ item ∈ ship.items, s.late item.object = false
  | _ => True

theorem imageAt_append {log : List Image} {seq : Nat} {image : Image}
    (h : imageAt log seq = some image) (next : Image) :
    imageAt (log ++ [next]) seq = some image := by
  rw [imageAt, ← List.cons_append,
    List.getElem?_append_left (List.getElem?_eq_some_iff.mp h).1]
  exact h

theorem imageAt_fold (log : List Image) :
    imageAt log (foldCommitted log).2 = some (foldCommitted log).1 := by
  have hlast : ([] :: log).getLast? = some (log.getLastD []) := by
    rw [List.getLast?_cons, List.getLastD_eq_getLast?]
  rw [List.getLast?_eq_getElem?] at hlast
  exact hlast

theorem imageAt_length (log : List Image) (next : Image) :
    imageAt (log ++ [next]) (log.length + 1) = some next := by
  rw [imageAt, List.getElem?_cons_succ, List.getElem?_concat_length]

/-- In a log whose images extend one another. -/
theorem imageAt_mono {log : List Image} (hlog : ([] :: log).Pairwise (· <+: ·)) {i j : Nat}
    {a b : Image} (ha : imageAt log i = some a) (hb : imageAt log j = some b) (hle : i ≤ j) :
    a <+: b := by
  obtain ⟨hi, rfl⟩ := List.getElem?_eq_some_iff.mp ha
  obtain ⟨hj, rfl⟩ := List.getElem?_eq_some_iff.mp hb
  rcases hle.lt_or_eq with hlt | rfl
  · exact List.pairwise_iff_getElem.mp hlog i j hi hj hlt
  · exact List.prefix_rfl

/-- The boat in flight carries the object. -/
def Aboard (s : State ι) (o : ι) : Prop := ∃ boat, s.boats.inflight = some boat ∧ o ∈ boat

/-- The object's live image extends the committed one at its seq. -/
def Based (s : State ι) (o : ι) : Prop :=
  ∃ image seq base, s.objects o = some image ∧ s.logSeq o = some seq ∧
    imageAt (s.log o) seq = some base ∧ base <+: image

/-- The boat in flight and its ship task. -/
structure Sailing (s : State ι) (boat : List ι) (ship : Ship ι) : Prop where
  objects : ∀ o, o ∈ boat ↔ ∃ item ∈ ship.items, item.object = o
  single : ∀ item ∈ ship.items, ∀ item' ∈ ship.items, item.object = item'.object → item = item'
  base : ∀ item ∈ ship.items,
    ∃ base, imageAt (s.log item.object) item.expectedSeq = some base ∧ base <+: item.image
  live : ∀ item ∈ ship.items, ∀ image, s.objects item.object = some image →
    s.late item.object = false →
      s.logSeq item.object = some item.expectedSeq ∧ item.image <+: image
  prewritten : ∀ n, ship.phase = .sailing n → ∀ i < n, ∀ item, ship.items[i]? = some item →
    (s.log item.object).length = item.expectedSeq
  landed : ship.phase = .done true → ∀ item ∈ ship.items,
    imageAt (s.log item.object) (item.expectedSeq + 1) = some item.image

/-- Logs extend; fetches and live objects have what they are said to have; the boat sails. -/
structure Sound (s : State ι) : Prop where
  log : ∀ o, ([] :: s.log o).Pairwise (· <+: ·)
  fetched : ∀ f ∈ s.fetches, ∀ image seq, f.result = some (image, seq) →
    imageAt (s.log f.object) seq = some image
  ashore : ∀ o image, s.objects o = some image → ¬ Aboard s o → Based s o
  idle : s.boats.inflight = none → s.ship = none
  afloat : ∀ boat, s.boats.inflight = some boat → ∃ ship, s.ship = some ship ∧ Sailing s boat ship

section

omit [DecidableEq ι]

theorem Sound.initial : Sound ({} : State ι) where
  log _ := List.pairwise_singleton _ _
  fetched _ h := by cases h
  ashore _ _ h := by cases h
  idle _ := rfl
  afloat _ h := by cases h

theorem Sound.sailing (hs : Sound s) {ship : Ship ι} (hship : s.ship = some ship) :
    ∃ boat, s.boats.inflight = some boat ∧ Sailing s boat ship := by
  cases hflight : s.boats.inflight with
  | none =>
    rw [hs.idle hflight] at hship
    cases hship
  | some boat =>
    obtain ⟨ship', hship', hsailing⟩ := hs.afloat boat hflight
    rw [hship] at hship'
    cases hship'
    exact ⟨boat, rfl, hsailing⟩

theorem Sound.kept (hs : Sound s) : Kept s where
  committed o seq image next himage hnext :=
    imageAt_mono (hs.log o) himage hnext (Nat.le_succ seq)
  handed ship hship := by
    obtain ⟨boat, _, hsailing⟩ := hs.sailing hship
    exact hsailing.base

end

/-- An object that is live now was so before and only got further transactions; or it was brought up
to the log ashore; or it was activated while it was aboard. -/
def Carried (s s' : State ι) (o : ι) : Prop :=
  s'.objects o = none ∨
  (∃ image image', s.objects o = some image ∧ s'.objects o = some image' ∧ image <+: image' ∧
    s'.logSeq o = s.logSeq o ∧ s'.late o = s.late o) ∨
  (¬ Aboard s o ∧ Based s' o) ∨ (Aboard s o ∧ s'.late o = true)

/-- The log, the ship task and what is in flight stay as they are. -/
structure Keeps (s s' : State ι) : Prop where
  log : s'.log = s.log
  fetches : ∀ f ∈ s'.fetches, f ∈ s.fetches
  ship : s'.ship = s.ship
  inflight : s'.boats.inflight = s.boats.inflight
  objects : ∀ o, Carried s s' o

section

omit [DecidableEq ι]

/-- An object that stays as it is. -/
theorem Carried.same {o : ι} (hobjects : s'.objects o = s.objects o)
    (hseq : s'.logSeq o = s.logSeq o) (hlate : s'.late o = s.late o) : Carried s s' o := by
  cases ho : s.objects o with
  | none => exact .inl (hobjects.trans ho)
  | some image =>
    exact .inr (.inl ⟨image, image, ho, hobjects.trans ho, List.prefix_rfl, hseq, hlate⟩)

theorem Keeps.refl (s : State ι) : Keeps s s :=
  ⟨rfl, fun _ h => h, rfl, rfl, fun _ => .same rfl rfl rfl⟩

theorem Keeps.aboard (h : Keeps s s') (o : ι) : Aboard s' o ↔ Aboard s o := by
  rw [Aboard, Aboard, h.inflight]

theorem Keeps.trans (h : Keeps s s') (h' : Keeps s' s'') : Keeps s s'' where
  log := h'.log.trans h.log
  fetches f hf := h.fetches f (h'.fetches f hf)
  ship := h'.ship.trans h.ship
  inflight := h'.inflight.trans h.inflight
  objects o := by
    rcases h'.objects o with hnone | ⟨image', image'', ho', ho'', hext, hseq, hlate⟩ |
      ⟨hashore, hbased⟩ | ⟨haboard, hlate⟩
    · exact .inl hnone
    · rcases h.objects o with hnone | ⟨image, image₀, ho, ho₀, hext₀, hseq₀, hlate₀⟩ |
        ⟨hashore, image₀, seq, base, ho₀, hseq₀, hbase, hext₀⟩ | ⟨haboard, hlate₀⟩
      · rw [hnone] at ho'
        cases ho'
      · rw [ho'] at ho₀
        cases ho₀
        exact .inr (.inl ⟨image, image'', ho, ho'', hext₀.trans hext, hseq.trans hseq₀,
          hlate.trans hlate₀⟩)
      · rw [ho'] at ho₀
        cases ho₀
        exact .inr (.inr (.inl ⟨hashore, image'', seq, base, ho'', hseq.trans hseq₀,
          by rwa [h'.log], hext₀.trans hext⟩))
      · exact .inr (.inr (.inr ⟨haboard, hlate.trans hlate₀⟩))
    · exact .inr (.inr (.inl ⟨fun ha => hashore ((h.aboard o).mpr ha), hbased⟩))
    · exact .inr (.inr (.inr ⟨(h.aboard o).mp haboard, hlate⟩))

theorem Sound.keeps (hs : Sound s) (h : Keeps s s') : Sound s' where
  log := h.log ▸ hs.log
  fetched f hf := h.log ▸ hs.fetched f (h.fetches f hf)
  ashore o image ho hashore := by
    rw [h.aboard] at hashore
    rcases h.objects o with hnone | ⟨image₀, image', ho₀, ho', hext, hseq, _⟩ | ⟨_, hbased⟩ |
      ⟨haboard, _⟩
    · rw [hnone] at ho
      cases ho
    · obtain ⟨image₁, seq, base, ho₁, hseq₁, hbase, hext₁⟩ := hs.ashore o image₀ ho₀ hashore
      rw [ho₀] at ho₁
      cases ho₁
      exact ⟨image', seq, base, ho', hseq.trans hseq₁, by rwa [h.log], hext₁.trans hext⟩
    · exact hbased
    · exact absurd haboard hashore
  idle hflight := by
    rw [h.inflight] at hflight
    exact h.ship.trans (hs.idle hflight)
  afloat boat hflight := by
    rw [h.inflight] at hflight
    obtain ⟨ship, hship, hsailing⟩ := hs.afloat boat hflight
    refine ⟨ship, h.ship.trans hship, ⟨hsailing.objects, hsailing.single, h.log ▸ hsailing.base,
      fun item hitem image ho hlate => ?_, h.log ▸ hsailing.prewritten, h.log ▸ hsailing.landed⟩⟩
    have haboard : Aboard s item.object :=
      ⟨boat, hflight, (hsailing.objects _).mpr ⟨item, hitem, rfl⟩⟩
    rcases h.objects item.object with hnone | ⟨image₀, image', ho₀, ho', hext, hseq, hlate'⟩ |
      ⟨hashore, _⟩ | ⟨_, hlate'⟩
    · rw [hnone] at ho
      cases ho
    · rw [ho] at ho'
      cases ho'
      obtain ⟨hseq₀, hext₀⟩ := hsailing.live item hitem image₀ ho₀ (hlate'.symm.trans hlate)
      exact ⟨hseq.trans hseq₀, hext₀.trans hext⟩
    · exact absurd haboard hashore
    · rw [hlate] at hlate'
      cases hlate'

end

theorem not_aboard {o : ι} (h : s.boats.unshipped o = false) : ¬ Aboard s o := by
  rintro ⟨boat, hflight, ho⟩
  rw [Boats.unshipped, hflight, Option.any_some, decide_eq_true ho, Bool.or_true] at h
  cases h

theorem Keeps.materialize {object : ι} {image : Image} {seq : Nat}
    (hashore : ¬ Aboard s object) (himage : imageAt (s.log object) seq = some image) :
    Keeps s (s.materialize object image seq) := by
  refine ⟨rfl, fun _ h => h, rfl, rfl, fun o => ?_⟩
  by_cases ho : o = object
  · subst ho
    exact .inr (.inr (.inl ⟨hashore, image, seq, image, Function.update_self ..,
      Function.update_self .., himage, List.prefix_rfl⟩))
  · exact .same (Function.update_of_ne ho ..) (Function.update_of_ne ho ..) rfl

theorem keeps_refreshIfStale (s : State ι) (object : ι) : Keeps s (s.refreshIfStale e object) := by
  unfold State.refreshIfStale
  split
  · exact .refl s
  next hclean =>
  dsimp only
  split
  · exact .refl s
  · have hclean := (Bool.or_eq_false_iff.mp (Bool.eq_false_iff.mpr hclean)).1
    exact .materialize (not_aboard hclean) (imageAt_fold _)

theorem keeps_refoldCleanBase (s : State ι) (object : ι) :
    Keeps s (s.refoldCleanBase site e object) := by
  unfold State.refoldCleanBase
  split
  · exact .refl s
  split
  · exact .refl s
  next hclean =>
  have hclean := (Bool.or_eq_false_iff.mp (Bool.eq_false_iff.mpr hclean)).1
  exact .materialize (not_aboard (Bool.or_eq_false_iff.mp hclean).1) (imageAt_fold _)

theorem keeps_prepare (participants : List ι) (readOnly : Bool) (s : State ι) :
    Keeps s (s.prepare site e participants readOnly) := by
  unfold State.prepare
  split
  · induction participants generalizing s with
    | nil => exact .refl s
    | cons o participants ih => exact (keeps_refreshIfStale s o).trans (ih _)
  · induction participants generalizing s with
    | nil => exact .refl s
    | cons o participants ih => exact (keeps_refoldCleanBase s o).trans (ih _)

theorem keeps_revertClosure (seed : List ι) : Keeps s (s.revertClosure seed) := by
  refine ⟨rfl, fun _ h => h, rfl, Boats.reverted_inflight .., fun o => ?_⟩
  by_cases ho : o ∈ s.boats.closure seed
  · exact .inl (if_pos ho)
  · refine .same (if_neg ho) (if_neg ho) ?_
    simp [State.revertClosure, State.purge, ho]

theorem keeps_apply (participants : List ι) (readOnly : Bool) (t : Nat) :
    Keeps s (s.apply e participants readOnly t) := by
  unfold State.apply
  split
  · exact .refl s
  split
  · exact .refl s
  · split
    · exact .refl s
    · exact keeps_revertClosure _
  · dsimp only
    split
    · exact .refl s
    · next changed _ _ =>
      refine ⟨rfl, fun _ h => h, rfl, (Boats.soil_all _ _ _).1, fun o => ?_⟩
      by_cases ho : o ∈ participants.filter changed
      · cases himage : s.objects o with
        | none => exact .inl (by simp only [if_pos ho, himage, Option.map_none])
        | some image =>
          refine .inr (.inl ⟨image, image ++ [t], himage, ?_, List.prefix_append _ _, rfl, rfl⟩)
          simp only [if_pos ho, himage, Option.map_some]
      · exact .same (if_neg ho) rfl rfl

theorem keeps_shed (queued : ι → Bool) : Keeps s (s.shed queued) := by
  refine ⟨rfl, fun _ h => h, rfl, rfl, fun o => ?_⟩
  by_cases ho : (s.boats.unshipped o || queued o) = true
  · refine .same (if_pos ho) rfl ?_
    simp only [State.shed, ho, Bool.and_true]
  · exact .inl (if_neg ho)

theorem keeps_reacquire (object : ι) : Keeps s (s.reacquire e object) := by
  unfold State.reacquire
  split
  · exact .refl s
  · refine ⟨rfl, fun _ h => h, rfl, rfl, fun o => ?_⟩
    by_cases ho : o = object
    · exact .inl (by simp [State.purge, ho])
    · refine .same ?_ (Function.update_of_ne ho ..) ?_
      · simp [State.purge, ho]
      · simp [State.purge, ho]

theorem keeps_revertOrphaned (s : State ι) : Keeps s (s.revertOrphaned e) := by
  unfold State.revertOrphaned
  dsimp only
  split
  · exact .refl s
  · exact keeps_revertClosure _

/-- What an activation brings is based on the log, or it comes in aboard. -/
theorem Sound.onActivated (hs : Sound s) (i : Nat) (ok : Bool) : Sound (s.onActivated e i ok) := by
  unfold State.onActivated
  split
  · exact hs
  next f hf =>
  have hdropped : Keeps s { s with fetches := s.fetches.eraseIdx i } :=
    ⟨rfl, fun f hf => (List.eraseIdx_sublist ..).subset hf, rfl, rfl, fun _ => .same rfl rfl rfl⟩
  dsimp only
  split
  · next image seq hresult =>
    have himage := hs.fetched f (List.mem_of_getElem? hf) image seq hresult
    split
    · refine hs.keeps (hdropped.trans ⟨rfl, fun _ h => h, rfl, rfl, fun o => ?_⟩)
      by_cases ho : o = f.object
      · subst ho
        by_cases haboard : Aboard s f.object
        · refine .inr (.inr (.inr ⟨haboard, ?_⟩))
          obtain ⟨boat, hflight, hmem⟩ := haboard
          simp [hflight, hmem]
        · -- the seq may have been cut down to an earlier one
          obtain ⟨base, hbase⟩ : ∃ base, imageAt (s.log f.object) (seq % 2 ^ 32) = some base := by
            refine ⟨_, List.getElem?_eq_getElem ?_⟩
            exact (Nat.mod_le _ _).trans_lt (List.getElem?_eq_some_iff.mp himage).1
          exact .inr (.inr (.inl ⟨haboard, image, _, base, Function.update_self ..,
            Function.update_self .., hbase,
            imageAt_mono (hs.log _) hbase himage (Nat.mod_le _ _)⟩))
      · exact .same (Function.update_of_ne ho ..) (Function.update_of_ne ho ..) (by simp [ho])
    · exact hs.keeps hdropped
  · exact hs.keeps hdropped

omit [DecidableEq ι] in
/-- What a boat takes along is what is live, at its seq. -/
theorem mem_items {objects : List ι} {item : Item ι}
    (h : item ∈ objects.filterMap s.shipItem) : item.object ∈ objects ∧
      s.objects item.object = some item.image ∧
      item.expectedSeq = (s.logSeq item.object).getD 0 := by
  obtain ⟨o, ho, hitem⟩ := List.mem_filterMap.mp h
  obtain ⟨image, himage, rfl⟩ := Option.map_eq_some_iff.mp hitem
  exact ⟨ho, himage, rfl⟩

theorem Sound.launch (hs : Sound s) : Sound (s.launch site e) := by
  unfold State.launch
  split
  · exact hs
  next hidle =>
  have hidle : s.boats.inflight = none := by
    cases hflight : s.boats.inflight with
    | none => rfl
    | some boat => exact absurd (by rw [hflight]; rfl) hidle
  have hashore : ∀ o, ¬ Aboard s o := by
    rintro o ⟨boat, hflight, _⟩
    rw [hidle] at hflight
    cases hflight
  dsimp only
  split
  · next hready =>
    have hlive := List.all_eq_true.mp (Bool.and_eq_true_iff.mp hready).2
    generalize s.boats.cut site.maxBoatBytes = cut at *
    refine ⟨hs.log, hs.fetched, fun o image ho _ => hs.ashore o image ho (hashore o),
      fun h => (by cases h), fun boat hflight => ?_⟩
    cases hflight
    refine ⟨_, rfl, ⟨fun o => ⟨fun ho => ?_, ?_⟩, fun item hitem item' hitem' heq => ?_,
      fun item hitem => ?_, fun item hitem image ho _ => ?_, fun n hn i hi => ?_,
      fun h => (by cases h)⟩⟩
    · obtain ⟨image, himage⟩ := Option.isSome_iff_exists.mp (hlive o ho)
      refine ⟨⟨o, image, (s.logSeq o).getD 0⟩, List.mem_filterMap.mpr ⟨o, ho, ?_⟩, rfl⟩
      rw [State.shipItem, himage, Option.map_some]
    · rintro ⟨item, hitem, rfl⟩
      exact (mem_items hitem).1
    · obtain ⟨_, himage, hseq⟩ := mem_items hitem
      obtain ⟨_, himage', hseq'⟩ := mem_items hitem'
      cases item
      cases item'
      simp only at heq himage himage' hseq hseq'
      subst heq
      rw [himage] at himage'
      cases himage'
      rw [hseq, hseq']
    · obtain ⟨_, himage, hseq⟩ := mem_items hitem
      obtain ⟨image, seq, base, ho, hlogSeq, hbase, hext⟩ :=
        hs.ashore _ _ himage (hashore _)
      rw [himage] at ho
      cases ho
      rw [hlogSeq, Option.getD_some] at hseq
      exact ⟨base, by rw [hseq]; exact hbase, hext⟩
    · obtain ⟨_, himage, hseq⟩ := mem_items hitem
      obtain ⟨_, seq, _, _, hlogSeq, _, _⟩ := hs.ashore _ _ himage (hashore _)
      rw [himage] at ho
      cases ho
      rw [hlogSeq, Option.getD_some] at hseq
      exact ⟨by rw [hseq]; exact hlogSeq, List.prefix_rfl⟩
    · cases hn
      exact absurd hi (Nat.not_lt_zero i)
  · refine hs.keeps ⟨rfl, fun _ h => h, rfl, Boats.ashore_inflight .., fun o => ?_⟩
    by_cases ho : o ∈ (s.boats.cut site.maxBoatBytes).objects
    · exact .inl (if_pos ho)
    · refine .same (if_neg ho) rfl ?_
      simp [State.purge, ho]

theorem Sound.maybeLaunch (hs : Sound s) : Sound (s.maybeLaunch site e) :=
  (hs.keeps (keeps_revertOrphaned s)).launch

theorem Sound.run (hs : Sound s) (participants : List ι) (readOnly : Bool) :
    Sound (s.run site e participants readOnly) := by
  have hcounted : Keeps s { s with txnsExecuted := s.txnsExecuted + 1 } :=
    ⟨rfl, fun _ h => h, rfl, rfl, fun _ => .same rfl rfl rfl⟩
  exact (hs.keeps (hcounted.trans ((keeps_prepare _ _ _).trans (keeps_apply _ _ _)))).maybeLaunch

omit [DecidableEq ι] in
/-- Ashore again after a boat that landed, if nobody disturbed it. -/
theorem Sailing.landing {boat : List ι} {ship : Ship ι} (h : Sailing s boat ship)
    (hdone : ship.phase = .done true) (hlate : ∀ item ∈ ship.items, s.late item.object = false)
    {o : ι} (ho : o ∈ boat) {image : Image} (himage : s.objects o = some image) :
    ∃ seq base, s.logSeq o = some seq ∧ imageAt (s.log o) (seq + 1) = some base ∧
      base <+: image := by
  obtain ⟨item, hitem, rfl⟩ := (h.objects o).mp ho
  obtain ⟨hseq, hext⟩ := h.live item hitem image himage (hlate item hitem)
  exact ⟨_, _, hseq, h.landed hdone item hitem, hext⟩

theorem Sound.onShipDone (hs : Sound s)
    (hgood : ∀ ship, s.ship = some ship → ship.phase = .done true →
      ∀ item ∈ ship.items, s.late item.object = false) : Sound (s.onShipDone site e) := by
  unfold State.onShipDone
  split
  · next items ok boat hship hflight =>
    obtain ⟨ship, hship', hsailing⟩ := hs.afloat boat hflight
    rw [hship] at hship'
    cases hship'
    have hashore : ∀ o, o ∉ boat → ¬ Aboard s o := by
      rintro o ho ⟨boat', hflight', hmem⟩
      rw [hflight] at hflight'
      cases hflight'
      exact ho hmem
    refine Sound.maybeLaunch ?_
    split
    · next hok =>
      subst hok
      refine ⟨hs.log, hs.fetched, fun o image ho _ => ?_, fun _ => rfl, fun _ h => (by cases h)⟩
      by_cases hmem : o ∈ boat
      · obtain ⟨seq, base, hseq, hbase, hext⟩ :=
          hsailing.landing rfl (hgood _ hship rfl) hmem ho
        refine ⟨image, seq + 1, base, ho, ?_, hbase, hext⟩
        simp only [if_pos hmem, hseq, Option.map_some]
      · obtain ⟨image', seq, base, ho', hseq, hbase, hext⟩ :=
          hs.ashore o image ho (hashore o hmem)
        exact ⟨image', seq, base, ho', (if_neg hmem).trans hseq, hbase, hext⟩
    · -- all that was aboard is reverted
      have hnone : (({ s with boats := { s.boats with inflight := none } } :
          State ι).revertClosure boat).boats.inflight = none := Boats.reverted_inflight ..
      refine ⟨hs.log, hs.fetched, fun o image ho _ => ?_, fun _ => rfl,
        fun _ h => (by cases hnone.symm.trans h)⟩
      have hout : o ∉ s.boats.closure boat := by
        intro hin
        cases ((if_pos hin).symm.trans ho : none = some image)
      have hmem : o ∉ boat := fun hin => hout (Groups.subset_closure _ boat hin)
      obtain ⟨image', seq, base, ho', hseq, hbase, hext⟩ := hs.ashore o image
        ((if_neg hout).symm.trans ho) (hashore o hmem)
      exact ⟨image', seq, base, (if_neg hout).trans ho', (if_neg hout).trans hseq, hbase, hext⟩
  · exact hs

section

omit [DecidableEq ι]

/-- Only the phase of the ship task changes. -/
theorem Sound.rephase (hs : Sound s) {items : List (Item ι)} {phase phase' : Phase}
    (hship : s.ship = some ⟨items, phase⟩)
    (hprewritten : ∀ n, phase' = .sailing n → ∀ i < n, ∀ item, items[i]? = some item →
      (s.log item.object).length = item.expectedSeq)
    (hlanded : phase' ≠ .done true) : Sound { s with ship := some ⟨items, phase'⟩ } := by
  refine ⟨hs.log, hs.fetched, hs.ashore, fun hflight => ?_, fun boat hflight => ?_⟩
  · rw [hs.idle hflight] at hship
    cases hship
  · obtain ⟨ship, hship', hsailing⟩ := hs.afloat boat hflight
    rw [hship] at hship'
    cases hship'
    exact ⟨_, rfl, ⟨hsailing.objects, hsailing.single, hsailing.base, hsailing.live, hprewritten,
      fun h => absurd h hlanded⟩⟩

theorem Sound.prewrite (hs : Sound s) : Sound s.prewrite := by
  unfold State.prewrite
  split
  · next items n hship =>
    split
    · next item hitem =>
      obtain ⟨boat, _, hsailing⟩ := hs.sailing hship
      refine hs.rephase hship (fun m hm i hi item' hitem' => ?_) ?_
      · split at hm
        · next hlen =>
          cases hm
          rcases Nat.lt_succ_iff_lt_or_eq.mp hi with hlt | rfl
          · exact hsailing.prewritten n rfl i hlt item' hitem'
          · rw [hitem] at hitem'
            cases hitem'
            exact hlen
        · cases hm
      · split
        · exact nofun
        · exact nofun
    · exact hs
  · exact hs

theorem Sound.sink (hs : Sound s) : Sound s.sink := by
  unfold State.sink
  split
  · next hship => exact hs.rephase hship (fun _ h => by cases h) nofun
  · exact hs

end

/-- What a log has at a position, it has there after a commit. -/
theorem imageAt_commit (s : State ι) (acked : Bool) (o : ι) (seq : Nat) (image : Image)
    (h : imageAt (s.log o) seq = some image) :
    imageAt ((s.commit acked).log o) seq = some image := by
  unfold State.commit
  split
  · split
    · dsimp only
      split
      · exact imageAt_append h _
      · exact h
    · exact h
  · exact h

/-- A commit extends the log of every object aboard by the image its boat carries. -/
theorem Sound.commit (hs : Sound s) (acked : Bool) : Sound (s.commit acked) := by
  unfold State.commit
  split
  · next items n hship =>
    split
    · next hn =>
      obtain ⟨boat, hflight, hsailing⟩ := hs.sailing hship
      -- the log of an object aboard has moved by its item; another one has not moved
      have hfind : ∀ item ∈ items, items.find? (fun it => it.object = item.object) = some item := by
        intro item hitem
        cases hfound : items.find? (fun it => it.object = item.object) with
        | none => simpa using List.find?_eq_none.mp hfound item hitem
        | some item' =>
          have hobject : item'.object = item.object := by simpa using List.find?_some hfound
          rw [hsailing.single item' (List.mem_of_find?_eq_some hfound) item hitem hobject]
      have hlen : ∀ item ∈ items, (s.log item.object).length = item.expectedSeq := by
        intro item hitem
        obtain ⟨i, hi⟩ := List.mem_iff_getElem?.mp hitem
        refine hsailing.prewritten n rfl i ?_ item hi
        rw [hn]
        exact (List.getElem?_eq_some_iff.mp hi).1
      have hold := imageAt_commit s acked
      simp only [State.commit, hship, if_pos hn] at hold
      refine ⟨fun o => ?_, fun f hf image seq h => hold _ _ _ (hs.fetched f hf image seq h),
        fun o image ho hashore => ?_, fun h => ?_, fun boat' hflight' => ?_⟩
      · dsimp only
        split
        · next item hfound =>
          have hobject : item.object = o := by simpa using List.find?_some hfound
          subst hobject
          have hitem := List.mem_of_find?_eq_some hfound
          obtain ⟨base, hbase, hext⟩ := hsailing.base item hitem
          rw [← List.cons_append]
          refine List.pairwise_append.mpr ⟨hs.log _, List.pairwise_singleton _ _, ?_⟩
          intro image himage next hnext
          rw [List.mem_singleton.mp hnext]
          obtain ⟨i, hi⟩ := List.mem_iff_getElem?.mp himage
          have hle := (List.getElem?_eq_some_iff.mp hi).1
          rw [List.length_cons, hlen item hitem] at hle
          exact (imageAt_mono (hs.log _) hi hbase (Nat.lt_succ_iff.mp hle)).trans hext
        · exact hs.log o
      · obtain ⟨image', seq, base, ho', hseq, hbase, hext⟩ := hs.ashore o image ho hashore
        exact ⟨image', seq, base, ho', hseq, hold _ _ _ hbase, hext⟩
      · rw [hflight] at h
        cases h
      · rw [hflight] at hflight'
        cases hflight'
        refine ⟨_, rfl, ⟨hsailing.objects, hsailing.single, fun item hitem => ?_, hsailing.live,
          fun m h => (by cases h), fun _ item hitem => ?_⟩⟩
        · obtain ⟨base, hbase, hext⟩ := hsailing.base item hitem
          exact ⟨base, hold _ _ _ hbase, hext⟩
        · dsimp only
          rw [hfind item hitem, ← hlen item hitem]
          exact imageAt_length _ _
    · exact hs
  · exact hs

omit [DecidableEq ι] in
/-- Only the fetches change. -/
theorem Sound.refetch (hs : Sound s) {fetches : List (Fetch ι)}
    (hfetched : ∀ f ∈ fetches, ∀ image seq, f.result = some (image, seq) →
      imageAt (s.log f.object) seq = some image) : Sound { s with fetches } := by
  refine ⟨hs.log, hfetched, hs.ashore, hs.idle, fun boat hflight => ?_⟩
  obtain ⟨ship, hship, h⟩ := hs.afloat boat hflight
  exact ⟨ship, hship, ⟨h.objects, h.single, h.base, h.live, h.prewritten, h.landed⟩⟩

omit [DecidableEq ι] in
theorem Sound.read (hs : Sound s) (i : Nat) : Sound (s.read i) := by
  unfold State.read
  split
  · exact hs
  · next f hf =>
    refine hs.refetch fun g hg image seq hresult => ?_
    rcases List.mem_or_eq_of_mem_set hg with hold | rfl
    · exact hs.fetched g hold image seq hresult
    · cases hresult
      exact imageAt_fold _

theorem sound_step (s : State ι) (m : Move ι × Env ι) (hs : Sound s) (hgood : Undisturbed s m) :
    Sound (s.step site m) := by
  obtain ⟨m, e⟩ := m
  cases m with
  | run participants readOnly => exact hs.run participants readOnly
  | fetch object =>
    refine hs.refetch fun f hf image seq hresult => ?_
    rcases List.mem_append.mp hf with hf | hf
    · exact hs.fetched f hf image seq hresult
    · rw [List.mem_singleton.mp hf] at hresult
      cases hresult
  | read i => exact hs.read i
  | activated i ok => exact hs.onActivated i ok
  | recheckPolls object => exact hs.keeps (keeps_refreshIfStale s object)
  | shed queued => exact hs.keeps (keeps_shed queued)
  | reacquire object => exact hs.keeps (keeps_reacquire object)
  | maybeLaunch => exact hs.maybeLaunch
  | prewrite => exact hs.prewrite
  | commit acked => exact hs.commit acked
  | sink => exact hs.sink
  | shipDone => exact hs.onShipDone hgood
  | boot =>
    exact ⟨hs.log, fun _ h => (by cases h), fun _ _ h => (by cases h), fun _ => rfl,
      fun _ h => (by cases h)⟩

/-- Whatever the transactions, the activations, the faults and the messages of a worker: in every
state of a run no commit loses anything, if no activation overtakes a boat that lands. -/
theorem snapshots_extend (site : Site ι) (moves : List (Move ι × Env ι))
    (h : Runs.Guarded (State.step site) Undisturbed {} moves) :
    Runs.Throughout (State.step site) Kept {} moves :=
  h.throughout (I := Sound) (fun s m hs hgood => sound_step s m hs hgood) (fun _ hs => hs.kept)
    Sound.initial

section Overtaken

def cove : Site Nat := { maxBoatBytes := 100, system := fun _ => false }

/-- A transaction commits and changes all its participants. -/
def changing : Env Nat := { outcome := .ok fun _ => true, bytes := fun _ => 1 }

/-- A transaction whose COMMIT fails at its second participant. -/
def failing : Env Nat := { outcome := .commitFailed 1, bytes := fun _ => 1 }

/-- Object 0 is activated, changed and shipped, twice. -/
def shipping : List (Move Nat × Env Nat) :=
  [(.fetch 0, changing), (.read 0, changing), (.activated 0 true, changing),
    (.run [0] false, changing), (.prewrite, changing), (.commit true, changing),
    (.run [0] false, changing), (.shipDone, changing), (.prewrite, changing),
    (.commit true, changing), (.shipDone, changing)]

theorem snapshots_extend_shipping : Runs.Throughout (State.step cove) Kept {} shipping := by
  refine snapshots_extend cove shipping ?_
  have hlate : ∀ (s : State Nat), s.late 0 = false → (∀ ship, s.ship = some ship →
      ship.items.map Item.object = [0]) → Undisturbed s (.shipDone, changing) := by
    intro s hlate hitems ship hship _ item hitem
    have hobject := List.mem_map_of_mem (f := Item.object) hitem
    rw [hitems ship hship] at hobject
    rw [List.mem_singleton.mp hobject]
    exact hlate
  refine ⟨trivial, trivial, trivial, trivial, trivial, trivial, trivial, hlate _ rfl ?_, trivial,
    trivial, hlate _ rfl ?_, trivial⟩
  · intro ship hship
    cases hship
    rfl
  · intro ship hship
    cases hship
    rfl

/-- A transaction of object 0 is in flight when another one fails to commit at object 1, and what
it committed at 0 is reverted. Object 0 is fetched before the boat commits, comes live before its
`ShipDone`, and changes. Its next boat builds on the seq that the first one moved it on to. -/
def overtaken : List (Move Nat × Env Nat) :=
  [(.fetch 0, changing), (.read 0, changing), (.activated 0 true, changing),
    (.run [0] false, changing), (.fetch 1, changing), (.read 0, changing),
    (.activated 0 true, changing), (.run [0, 1] false, failing), (.fetch 0, changing),
    (.read 0, changing), (.prewrite, changing), (.commit true, changing),
    (.activated 0 true, changing), (.run [0] false, changing), (.shipDone, changing),
    (.prewrite, changing), (.commit true, changing)]

theorem overtaken_lost : ¬ Runs.Throughout (State.step cove) Kept {} overtaken := by
  intro h
  have hlog : (Runs.run (State.step cove) {} overtaken).log 0 = [[0], [2]] := by decide +kernel
  have hext : [0] <+: [2] := h.last.committed 0 1 [0] [2] (by rw [hlog]; rfl) (by rw [hlog]; rfl)
  exact absurd hext (by decide)

end Overtaken

end Fafo.Snapshots
