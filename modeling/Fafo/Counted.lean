import Fafo.Hearing

/-! Under the log engine a lone owner knows the committed seq of whatever it has live or polls on.
-/
namespace Fafo.Polls

variable {ι Img Sql Row : Type} [LinearOrder ι] {site : Site ι Img Sql Row} {e : Env ι}
variable {s s' : State ι Img Sql Row} {t : Txn ι Sql}

/-- The seqs that the worker has not been told of: one on each object of a boat whose ship task is
through. -/
def State.due (s : State ι Img Sql Row) (o : ι) : Nat :=
  match s.ship with
  | none => 0
  | some ⟨_, _, .underway⟩ => 0
  | some ⟨items, _, _⟩ => if o ∈ items.map ShipItem.object then 1 else 0

/-- What is live reflects all that is committed but what is due, and so does what polls wait on. -/
structure Counted (s : State ι Img Sql Row) : Prop where
  live : ∀ {o}, (s.live o).isSome → ∃ seq, s.logSeq o = some seq ∧ s.committedSeq o ≤ seq + s.due o
  parked : ∀ q ∈ s.polls, s.live q.1 = none → s.committedSeq q.1 ≤ (s.logSeq q.1).getD 0
  fetched : ∀ f ∈ s.fetches, s.committedSeq f.object ≤ f.seq
  once : ∀ {ship}, s.ship = some ship → (ship.items.map ShipItem.object).Nodup

theorem Counted.abreast (hs : Counted s) : Abreast s (s.polls.map Prod.fst) := by
  intro o ho hnone
  obtain ⟨q, hq, rfl⟩ := List.mem_map.mp ho
  exact hs.parked q hq hnone

theorem due_eq_zero {o : ι} (h : s.boats.inflight = s.ship.map fun ship =>
    ship.items.map ShipItem.object) (hashore : ¬ s.Aboard o) : s.due o = 0 := by
  unfold State.due
  split
  · rfl
  · rfl
  · rename_i items _ _ _ hship
    refine if_neg fun hin => hashore ⟨items.map ShipItem.object, ?_, hin⟩
    rw [h, hship]
    rfl

/-- Objects go cold and polls are answered; the boat and the fetches are as they were. -/
theorem Counted.hears (hs : Counted s) (h : Hears site e s s') (hship : s'.ship = s.ship)
    (hfetches : s'.fetches = s.fetches) : Counted s' := by
  have hcommitted (o : ι) : s'.committedSeq o = s.committedSeq o :=
    congrArg (fun shelf => (Shelf.committed shelf o).length) h.shelf
  have hdue (o : ι) : s'.due o = s.due o := by
    unfold State.due
    rw [hship]
  refine ⟨fun {o} hsome => ?_, fun q hq hnone => ?_, fun f hf => ?_, fun hship' => ?_⟩
  · rw [hcommitted, hdue]
    rcases h.chills o with ⟨hlive, hseq⟩ | hcold
    · rw [hseq]
      exact hs.live (hlive ▸ hsome)
    · rw [hcold] at hsome
      cases hsome
  · obtain ⟨hold, hlive, hseq⟩ := h.polls q hq
    rw [hcommitted, hseq]
    exact hs.parked q hold (hlive ▸ hnone)
  · rw [hcommitted]
    exact hs.fetched f (hfetches ▸ hf)
  · exact hs.once (hship ▸ hship')

theorem Counted.talks (hs : Counted s) (h : Talks s s') (hpolls : ∀ q ∈ s'.polls, q ∈ s.polls) :
    Counted s' := by
  have hcommitted (o : ι) : s'.committedSeq o = s.committedSeq o :=
    congrArg (fun committed => (committed o).length) h.committed
  have hdue (o : ι) : s'.due o = s.due o := by
    unfold State.due
    rw [h.ship]
  refine ⟨fun {o} hsome => ?_, fun q hq hnone => ?_, fun f hf => ?_, fun hship => ?_⟩
  · rw [hcommitted, hdue, h.logSeq]
    exact hs.live (h.live ▸ hsome)
  · rw [hcommitted, h.logSeq]
    exact hs.parked q (hpolls q hq) (h.live ▸ hnone)
  · rw [hcommitted]
    exact hs.fetched f (h.fetches ▸ hf)
  · exact hs.once (h.ship ▸ hship)

theorem Counted.send (hs : Counted s) (asker : Asker ι Sql)
    (answer : Except ApiError (TxnResponse Row)) : Counted (s.send asker answer) :=
  hs.talks (talks_send _ _) fun _ h => h

theorem Counted.firePolls (hs : Counted s) (pass : Bool) (objects : List ι) :
    Counted (s.firePolls site e pass objects) :=
  hs.talks (talks_firePolls _ _) fun q hq =>
    ((hears_firePolls pass objects : Hears site e s _).polls q hq).1

theorem ship_revertOrphaned : (s.revertOrphaned e).ship = s.ship ∧
    (s.revertOrphaned e).fetches = s.fetches ∧
    (s.revertOrphaned e).boats.inflight = s.boats.inflight := by
  unfold State.revertOrphaned
  dsimp only
  split_ifs
  · exact ⟨rfl, rfl, rfl⟩
  · exact ⟨rfl, rfl, (reverted_revertClosure s _).inflight⟩

/-- A boat leaves with each of its objects once, and nothing is due on it yet. -/
theorem Counted.launch (hs : Counted s) (hmatched : s.boats.inflight = s.ship.map fun ship =>
    ship.items.map ShipItem.object) : Counted (s.launch site e) := by
  have hhears : Hears site e s (s.launch site e) := hears_launch
  have hcases : (s.launch site e).fetches = s.fetches ∧ ((s.launch site e).ship = s.ship ∨
      s.ship = none ∧ ∃ items waiters, (s.launch site e).ship = some ⟨items, waiters, .underway⟩ ∧
        (items.map ShipItem.object).Nodup) := by
    unfold State.launch
    dsimp only
    split_ifs with hskip hread hlive
    · exact ⟨rfl, .inl rfl⟩
    · refine ⟨(board_cases _ _).1.fetches, .inr ⟨?_, _, _, rfl, ?_⟩⟩
      · have hashore : s.boats.inflight = none := by
          cases hin : s.boats.inflight with
          | none => rfl
          | some boat => exact absurd (by simp [hin]) hskip
        rw [hashore] at hmatched
        exact Option.map_eq_none_iff.mp hmatched.symm
      · rw [map_object_items (List.all_eq_true.mp hlive)]
        obtain ⟨picked, left, hloaded⟩ := Boats.loaded_cut site.maxBoatBytes s.boats
        exact hloaded.nodup
    · exact ⟨rfl, .inl rfl⟩
    · exact ⟨rfl, .inl rfl⟩
  obtain ⟨hfetches, hsame | ⟨hnone, items, waiters, hship, hnodup⟩⟩ := hcases
  · exact hs.hears hhears hsame hfetches
  · -- the boat is new: forget it, and nothing but its objects has to be counted
    generalize s.launch site e = next at hhears hfetches hship ⊢
    have hforget : Hears site e s { next with ship := none } :=
      hhears.trans (.of_same rfl rfl rfl rfl fun _ h => h)
    have hashore : Counted { next with ship := none } := hs.hears hforget hnone.symm hfetches
    refine ⟨fun hsome => ?_, hashore.parked, hashore.fetched, fun hship' => ?_⟩
    · obtain ⟨seq, hseq, hle⟩ := hashore.live hsome
      exact ⟨seq, hseq, hle.trans (Nat.add_le_add_left (Nat.zero_le _) _)⟩
    · rw [hship] at hship'
      cases hship'
      exact hnodup

theorem Counted.maybeLaunch (hs : Counted s) (hmatched : s.boats.inflight = s.ship.map fun ship =>
    ship.items.map ShipItem.object) : Counted (s.maybeLaunch site e) := by
  have hhears : Hears site e s (s.revertOrphaned e) := hears_revertOrphaned
  obtain ⟨hship, hfetches, hinflight⟩ := ship_revertOrphaned (s := s) (e := e)
  refine (hs.hears hhears hship hfetches).launch ?_
  rw [hinflight, hship, hmatched]

theorem Counted.finishClosing (hs : Counted s) : Counted s.finishClosing := by
  refine hs.talks talks_finishClosing fun q hq => ?_
  unfold State.finishClosing at hq
  split at hq
  · exact (List.mem_filter.mp hq).1
  · exact hq

theorem Counted.refold (hs : Counted s) (o : ι) : Counted (s.refold site o 0) := by
  have hother {o' : ι} (ho : o' ≠ o) : (s.refold site o 0).live o' = s.live o' ∧
      (s.refold site o 0).logSeq o' = s.logSeq o' :=
    ⟨Function.update_of_ne ho _ _, Function.update_of_ne ho _ _⟩
  have hlive : (s.refold site o 0).live o = some (s.fold site o 0) := Function.update_self _ _ _
  have hseq : (s.refold site o 0).logSeq o = some (s.committedSeq o) := Function.update_self _ _ _
  refine ⟨fun {o'} hsome => ?_, fun q hq hnone => ?_, hs.fetched, hs.once⟩
  · change ∃ seq, _ ∧ s.committedSeq o' ≤ seq + s.due o'
    by_cases ho : o' = o
    · subst ho
      exact ⟨_, hseq, Nat.le_add_right _ _⟩
    · rw [(hother ho).2]
      exact hs.live ((hother ho).1 ▸ hsome)
  · change s.committedSeq q.1 ≤ _
    by_cases ho : q.1 = o
    · rw [ho, hlive] at hnone
      cases hnone
    · rw [(hother ho).1] at hnone
      rw [(hother ho).2]
      exact hs.parked q hq hnone

theorem Counted.refreshIfStale (hs : Counted s) (hwhole : e.Whole) (o : ι) :
    Counted (s.refreshIfStale site e o).2 := by
  obtain heq | ⟨missed, hread, -, -, heq⟩ := refreshIfStale_cases site e s o
  · rwa [heq]
  · rw [heq, hwhole o missed (.inl hread)]
    exact hs.refold o

theorem Counted.refoldCleanBase (hs : Counted s) (hwhole : e.Whole) (o : ι) :
    Counted (s.refoldCleanBase site e o) := by
  obtain heq | ⟨missed, hread, -, -, heq⟩ := refoldCleanBase_cases site e s o
  · rwa [heq]
  · rw [heq, hwhole o missed (.inl hread)]
    exact hs.refold o

theorem Counted.recount (hs : Counted s) (hwhole : e.Whole) (o : ι) :
    Counted (s.recount site e o) := by
  obtain heq | ⟨uncounted, missed, -, hread, -, heq⟩ := recount_cases site e s o
  · rwa [heq]
  · rw [heq, hwhole o missed (.inr hread)]
    exact hs.refold o

theorem Counted.catchUp (hs : Counted s) (hwhole : e.Whole) : Counted (s.catchUp site e t) := by
  unfold State.catchUp
  split
  · generalize t.participants = objects
    induction objects generalizing s with
    | nil => exact hs
    | cons o objects ih =>
      rw [List.foldl_cons]
      refine ih ?_
      split
      · exact hs.refreshIfStale hwhole o
      · exact hs.refoldCleanBase hwhole o
  · exact hs

theorem Counted.register (hs : Counted s) {po : PollOpts} {o : ι} {op : Op ι Sql}
    {results : List (OpResult Row)} (hwhole : e.Whole) (hlive : (s.live o).isSome) :
    Counted (s.register site e t po o op results) := by
  have hreg : Registered site e t po o op results s (s.register site e t po o op results) :=
    registered_register po o op results
  generalize s.register site e t po o op results = s' at hreg ⊢
  cases hreg with
  | answered _ _ => exact hs.send _ _
  | refreshed _ _ _ _ _ _ => exact (hs.refreshIfStale hwhole.again o).send _ _
  | parked hagain hquiet =>
    rename_i next
    have hnext : Counted next ∧ (next.live o).isSome := by
      rcases hagain with rfl | ⟨-, -, rfl⟩
      · exact ⟨hs, hlive⟩
      · refine ⟨hs.refreshIfStale hwhole.again o, ?_⟩
        obtain heq | ⟨missed, -, -, -, heq⟩ := refreshIfStale_cases site e.again s o
        · rwa [heq]
        · rw [heq]
          change (Function.update s.live o _ o).isSome
          rw [Function.update_self]
          rfl
    refine ⟨fun hsome => hnext.1.live hsome, fun q hq hnone => ?_, hnext.1.fetched,
      fun hship => hnext.1.once hship⟩
    rcases List.mem_append.mp hq with hold | hnew
    · exact hnext.1.parked q hold hnone
    · rw [List.mem_singleton.mp hnew] at hnone
      have hcold : next.live o = none := hnone
      rw [hcold] at hnext
      cases hnext.2

theorem Counted.settle_wrote (hs : Counted s) {results : List (OpResult Row)}
    {images : ι → Option Img} (hread : t.readOnly = false)
    (hwrote : State.writeOps site s.live t.ops = .ok (results, images)) (changed : List ι) :
    Counted (({ s with live := fun o => if o ∈ t.participants then images o else s.live o } :
      State ι Img Sql Row).settle site e t results changed) := by
  generalize hnext : ({ s with
    live := fun o => if o ∈ t.participants then images o else s.live o } :
      State ι Img Sql Row) = next
  have hsame (o : ι) : (next.live o).isSome = (s.live o).isSome := by
    rw [← hnext]
    dsimp only
    split_ifs
    · rcases writeOps_later hwrote o with heq | ⟨old, new, hold, hnew, -⟩
      · rw [heq]
      · rw [hold, hnew]
        rfl
    · rfl
  have hwritten {next' : State ι Img Sql Row} (hlive : next'.live = next.live)
      (hlogSeq : next'.logSeq = s.logSeq) (hship : next'.ship = s.ship)
      (hfetches : next'.fetches = s.fetches) (hpolls : next'.polls = s.polls)
      (hcommitted : next'.committed = s.committed) : Counted next' := by
    have hseq (o : ι) : next'.committedSeq o = s.committedSeq o :=
      congrArg (fun committed => (committed o).length) hcommitted
    have hdue (o : ι) : next'.due o = s.due o := by
      unfold State.due
      rw [hship]
    refine ⟨fun {o} hsome => ?_, fun q hq hnone => ?_, fun f hf => ?_, fun h => hs.once (hship ▸ h)⟩
    · rw [hseq, hdue, hlogSeq]
      rw [hlive, hsame] at hsome
      exact hs.live hsome
    · rw [hseq, hlogSeq]
      rw [hlive, ← Option.not_isSome_iff_eq_none, hsame, Option.not_isSome_iff_eq_none] at hnone
      exact hs.parked q (hpolls ▸ hq) hnone
    · rw [hseq]
      exact hs.fetched f (hfetches ▸ hf)
  unfold State.settle
  rw [if_neg (by simp [hread])]
  split_ifs
  · refine Counted.firePolls ?_ false _
    refine hwritten rfl ?_ ?_ ?_ ?_ ?_
    all_goals
      rw [← hnext]
      rfl
  · refine Counted.firePolls ?_ false _
    unfold State.acknowledge
    dsimp only
    split_ifs
    · refine hwritten rfl ?_ ?_ ?_ ?_ ?_
      all_goals
        rw [← hnext]
        rfl
    · refine hwritten rfl ?_ ?_ ?_ ?_ ?_
      all_goals rw [← hnext]

theorem Counted.execute (hs : Counted s) (hwhole : e.Whole) : Counted (s.execute site e t) := by
  unfold State.execute
  have happlied : Applied site e t s (s.apply site e t) := applied_apply
  generalize s.apply site e t = applied at happlied ⊢
  cases happlied with
  | refused error => exact hs.send _ _
  | half error seed =>
    have hhears : Hears site e s (s.revertClosure seed) := hears_revertClosure seed
    exact (hs.hears hhears rfl rfl).send _ _
  | wrote hread hwrote => exact hs.settle_wrote hread hwrote _
  | read hread hresults =>
    dsimp only
    obtain ⟨po, o, op, ⟨image, -, hlive, -⟩, heq⟩ | heq := settle_read (e := e) hread hresults []
    · rw [heq]
      exact hs.register hwhole (hlive ▸ rfl)
    · rw [heq]
      exact hs.send _ _

/-- What was due on a boat's objects is counted when it is back. -/
theorem Counted.landed (hs : Counted s) (hlog : site.logPrimary = true)
    {items : List (ShipItem ι Img)} {waiters : List (Waiter ι Sql Row)} {promoted : List ι}
    (hship : s.ship = some ⟨items, waiters, .committed promoted⟩)
    (hclean : ∀ o ∈ items.map ShipItem.object, (s.live o).isSome) :
    Counted (({ s with boats := { s.boats with inflight := none }, ship := none } :
      State ι Img Sql Row).landed site e (items.map ShipItem.object) promoted
        (items.map ShipItem.object)) := by
  unfold State.landed
  rw [if_pos hlog, if_pos hlog]
  refine Counted.firePolls ?_ true _
  have hdue (o : ι) : s.due o = if o ∈ items.map ShipItem.object then 1 else 0 := by
    unfold State.due
    rw [hship]
  refine ⟨fun {o} hsome => ?_, fun q hq hnone => ?_, hs.fetched, fun h => by cases h⟩
  · obtain ⟨seq, hseq, hle⟩ := hs.live hsome
    rw [hdue] at hle
    change ∃ n, (if o ∈ items.map ShipItem.object then (s.logSeq o).map (· + 1) else s.logSeq o) =
      some n ∧ s.committedSeq o ≤ n + 0
    rw [hseq]
    split_ifs at hle ⊢
    · exact ⟨seq + 1, rfl, hle⟩
    · exact ⟨seq, rfl, hle⟩
  · have hout : q.1 ∉ items.map ShipItem.object := by
      intro hin
      have hsome := hclean q.1 hin
      have hcold : s.live q.1 = none := hnone
      rw [hcold] at hsome
      cases hsome
    change s.committedSeq q.1 ≤ (if q.1 ∈ items.map ShipItem.object
      then (s.logSeq q.1).map (· + 1) else s.logSeq q.1).getD 0
    rw [if_neg hout]
    exact hs.parked q hq hnone

/-- A boat that has failed takes its objects along, and with them what was due. -/
theorem Counted.sunk (hs : Counted s) (hmatched : s.boats.inflight = s.ship.map fun ship =>
    ship.items.map ShipItem.object) {objects : List ι} (hobjects : s.boats.inflight = some objects)
    (site : Site ι Img Sql Row) (rebased : Option ι) :
    Counted ((({ s with boats := { s.boats with inflight := none }, ship := none } :
      State ι Img Sql Row).relinquish e rebased).revertClosure objects) := by
  generalize hhome : ({ s with boats := { s.boats with inflight := none }, ship := none } :
      State ι Img Sql Row) = home
  have hidle : Hears site e s home := by
    subst hhome
    exact .of_same rfl rfl rfl rfl fun _ h => h
  have hhears : Hears site e s ((home.relinquish e rebased).revertClosure objects) :=
    hidle.trans ((hears_relinquish rebased).trans (hears_revertClosure objects))
  have hreverted := reverted_revertClosure (home.relinquish e rebased) objects
  have hkept : (home.relinquish e rebased).ship = none ∧
      (home.relinquish e rebased).fetches = s.fetches := by
    subst hhome
    unfold State.relinquish
    split
    · exact ⟨rfl, rfl⟩
    · split_ifs
      · exact ⟨rfl, rfl⟩
      · exact ⟨rfl, rfl⟩
  have hcommitted (o : ι) :
      ((home.relinquish e rebased).revertClosure objects).committedSeq o = s.committedSeq o :=
    congrArg (fun shelf => (Shelf.committed shelf o).length) hhears.shelf
  refine ⟨fun {o} hsome => ?_, fun q hq hnone => ?_, fun f hf => ?_, fun h => ?_⟩
  · rcases hhears.chills o with ⟨hlive, hseq⟩ | hcold
    · have hashore : ¬ s.Aboard o := by
        rintro ⟨boat, hboat, hin⟩
        rw [hobjects] at hboat
        cases hboat
        rw [(hreverted.cold o (Groups.subset_closure _ _ hin)).1] at hsome
        cases hsome
      obtain ⟨seq, hlogSeq, hle⟩ := hs.live (hlive ▸ hsome)
      rw [due_eq_zero hmatched hashore] at hle
      rw [hcommitted, hseq]
      exact ⟨seq, hlogSeq, hle.trans (Nat.le_add_right _ _)⟩
    · rw [hcold] at hsome
      cases hsome
  · obtain ⟨hold, hlive, hseq⟩ := hhears.polls q hq
    rw [hcommitted, hseq]
    exact hs.parked q hold (hlive ▸ hnone)
  · rw [hcommitted]
    exact hs.fetched f (hkept.2 ▸ hf)
  · have hship : (home.relinquish e rebased).ship = some _ := h
    rw [hkept.1] at hship
    cases hship

theorem Counted.onShipDone (hs : Counted s) (hlog : site.logPrimary = true)
    (hg : Grounded (s.shelf.firm site) s) : Counted (s.onShipDone site e) := by
  unfold State.onShipDone
  split
  · rename_i items waiters promoted objects hship hobjects
    have hmatched := hg.matched
    rw [hobjects, hship] at hmatched
    have hobjects' : objects = items.map ShipItem.object := Option.some.inj hmatched
    subst hobjects'
    have hhome := hg.landed_home (e := e) hship hobjects
    refine (Counted.maybeLaunch (hs.landed hlog hship fun o ho => ?_) hhome.matched).finishClosing
    obtain ⟨item, hitem, rfl⟩ := List.mem_map.mp ho
    obtain ⟨image, himage, -⟩ := hg.afloat trivial hship item hitem
    rw [himage]
    rfl
  · rename_i items waiters rebased objects hship hobjects
    refine (Counted.maybeLaunch (hs.sunk hg.matched hobjects site rebased) ?_).finishClosing
    exact (hg.sunk hobjects).matched
  · exact hs

theorem Counted.shutdown (hs : Counted s) (hmatched : s.boats.inflight = s.ship.map fun ship =>
    ship.items.map ShipItem.object) : Counted (s.shutdown site e) := by
  have hclosing : Counted { s with closing := true } := ⟨hs.live, hs.parked, hs.fetched, hs.once⟩
  unfold State.shutdown
  exact (hclosing.maybeLaunch hmatched).finishClosing

/-- What is shed is clean, and its seq is kept. -/
theorem Counted.shed (hs : Counted s) (hmatched : s.boats.inflight = s.ship.map fun ship =>
    ship.items.map ShipItem.object) : Counted (s.shed e) := by
  refine ⟨fun {o} hsome => ?_, fun q hq hnone => ?_, hs.fetched, hs.once⟩
  · have hsome : (if s.boats.unshipped o || e.queued o then s.live o else none).isSome := hsome
    split_ifs at hsome
    · exact hs.live hsome
    · cases hsome
  · have hnone : (if s.boats.unshipped q.1 || e.queued q.1 then s.live q.1 else none) =
        none := hnone
    cases hlive : s.live q.1 with
    | none => exact hs.parked q hq hlive
    | some image =>
      have hclean : s.boats.unshipped q.1 = false := by
        by_contra hun
        rw [if_pos (by simp [hun]), hlive] at hnone
        cases hnone
      obtain ⟨seq, hseq, hle⟩ := hs.live (Option.isSome_of_eq_some hlive)
      rw [due_eq_zero hmatched (unshipped_eq_false.mp hclean).2] at hle
      change s.committedSeq q.1 ≤ (s.logSeq q.1).getD 0
      rw [hseq]
      exact hle

theorem Counted.recheckPolls (hs : Counted s) (hwhole : e.Whole) :
    Counted (s.recheckPolls site e) := by
  have hall : ∀ (objects : List ι) (s : State ι Img Sql Row), Counted s →
      Counted (objects.foldl (State.recheck site e) s) := by
    intro objects
    induction objects with
    | nil => exact fun _ hs => hs
    | cons o objects ih =>
      intro s hs
      refine ih _ ?_
      unfold State.recheck
      dsimp only
      split
      · exact ((hs.recount hwhole o).firePolls true [o]).firePolls false [o]
      · exact (hs.firePolls true [o]).firePolls false [o]
  exact hall _ s hs

theorem Counted.onActivated (hs : Counted s) (hlog : site.logPrimary = true) {f : Fetch ι Img}
    {i : Nat} {ok : Bool} (hf : s.fetches[i]? = some f) :
    Counted (({ s with fetches := s.fetches.eraseIdx i } : State ι Img Sql Row).onActivated
      site e f ok) := by
  have hrest : Counted { s with fetches := s.fetches.eraseIdx i } :=
    ⟨hs.live, hs.parked, fun f' hf' => hs.fetched f' (List.mem_of_mem_eraseIdx hf'), hs.once⟩
  unfold State.onActivated
  split
  · have hother {o : ι} (ho : o ≠ f.object) :
        Function.update s.live f.object (some f.image) o = s.live o ∧
          Function.update s.logSeq f.object (some f.seq) o = s.logSeq o :=
      ⟨Function.update_of_ne ho _ _, Function.update_of_ne ho _ _⟩
    refine ⟨fun {o} hsome => ?_, fun q hq hnone => ?_, hrest.fetched, hrest.once⟩
    · change ∃ seq, Function.update s.logSeq f.object (some f.seq) o = some seq ∧
        s.committedSeq o ≤ seq + s.due o
      by_cases ho : o = f.object
      · subst ho
        refine ⟨f.seq, Function.update_self _ _ _, ?_⟩
        exact (hs.fetched f (List.mem_of_getElem? hf)).trans (Nat.le_add_right _ _)
      · rw [(hother ho).2]
        exact hs.live ((hother ho).1 ▸ hsome)
    · have hnone : Function.update s.live f.object (some f.image) q.1 = none := hnone
      change s.committedSeq q.1 ≤ (Function.update s.logSeq f.object (some f.seq) q.1).getD 0
      by_cases ho : q.1 = f.object
      · rw [ho, Function.update_self] at hnone
        cases hnone
      · rw [(hother ho).1] at hnone
        rw [(hother ho).2]
        exact hs.parked q hq hnone
  · exact hrest

/-- A boat's record lands: its ship task is through, and one seq is due on each of its objects. -/
theorem Counted.land (hs : Counted s) (hlog : site.logPrimary = true)
    (hg : Grounded (s.shelf.firm site) s) {items : List (ShipItem ι Img)}
    {waiters : List (Waiter ι Sql Row)} (hship : s.ship = some ⟨items, waiters, .underway⟩)
    (voyage : Voyage ι) (hthrough : voyage ≠ .underway) (outbox : List (Sent ι Sql Row)) :
    Counted { s.land site items with ship := some ⟨items, [], voyage⟩, outbox } := by
  have hlands : Lands s (s.land site items) := lands_land items
  have hcommitted (o : ι) : (s.land site items).committedSeq o =
      s.committedSeq o + (items.map ShipItem.object).count o := by
    have hall := committed_land (s := s) hlog items o
    refine (congrArg List.length hall).trans ?_
    rw [List.length_append, List.length_map, List.count, List.countP_map,
      List.countP_eq_length_filter]
    refine congrArg (s.committedSeq o + ·) (congrArg List.length ?_)
    refine List.filter_congr fun item _ => ?_
    exact (beq_eq_decide item.object o).symm
  have hsame {o : ι} (hcold : s.live o = none) :
      (s.land site items).committedSeq o = s.committedSeq o := by
    have hout : o ∉ items.map ShipItem.object := by
      intro hin
      obtain ⟨item, hitem, rfl⟩ := List.mem_map.mp hin
      obtain ⟨image, himage, -⟩ := hg.afloat trivial hship item hitem
      rw [hcold] at himage
      cases himage
    rw [hcommitted, List.count_eq_zero_of_not_mem hout, Nat.add_zero]
  refine ⟨fun {o} hsome => ?_, fun q hq hnone => ?_, fun f hf => ?_, ?_⟩
  · have hsome : ((s.land site items).live o).isSome := hsome
    rw [hlands.live] at hsome
    obtain ⟨seq, hseq, hle⟩ := hs.live hsome
    have hzero : s.due o = 0 := by
      unfold State.due
      rw [hship]
    refine ⟨seq, (congrFun hlands.logSeq o).trans hseq, ?_⟩
    change (s.land site items).committedSeq o ≤ _
    have hdue : ({ s.land site items with ship := some ⟨items, [], voyage⟩, outbox } :
        State ι Img Sql Row).due o = (items.map ShipItem.object).count o := by
      have hone : (if o ∈ items.map ShipItem.object then 1 else 0) =
          (items.map ShipItem.object).count o := by
        rw [(hs.once hship).count]
      cases voyage with
      | underway => exact absurd rfl hthrough
      | committed promoted => exact hone
      | failed landed rebased => exact hone
    rw [hdue, hcommitted]
    omega
  · have hcold : s.live q.1 = none := (congrFun hlands.live q.1).symm.trans hnone
    have hseq : (s.land site items).logSeq q.1 = s.logSeq q.1 := congrFun hlands.logSeq q.1
    change (s.land site items).committedSeq q.1 ≤ ((s.land site items).logSeq q.1).getD 0
    rw [hsame hcold, hseq]
    exact hs.parked q (hlands.polls ▸ hq) hcold
  · have hold : f ∈ s.fetches := hlands.fetches ▸ hf
    change (s.land site items).committedSeq f.object ≤ f.seq
    rw [hsame ((hg.fetched f hold).2 trivial)]
    exact hs.fetched f hold
  · intro ship hnow
    cases hnow
    have honce := hs.once hship
    exact honce

/-- The ship task gives up, and nothing has landed. -/
theorem Counted.give_up (hs : Counted s) {items : List (ShipItem ι Img)}
    {waiters : List (Waiter ι Sql Row)} (hship : s.ship = some ⟨items, waiters, .underway⟩)
    (voyage : Voyage ι) (outbox : List (Sent ι Sql Row)) :
    Counted { s with ship := some ⟨items, [], voyage⟩, outbox } := by
  refine ⟨fun {o} hsome => ?_, hs.parked, hs.fetched, ?_⟩
  · obtain ⟨seq, hseq, hle⟩ := hs.live hsome
    have hzero : s.due o = 0 := by
      unfold State.due
      rw [hship]
    rw [hzero] at hle
    exact ⟨seq, hseq, hle.trans (Nat.add_le_add_left (Nat.zero_le _) _)⟩
  · intro ship hnow
    cases hnow
    have honce := hs.once hship
    exact honce

theorem Counted.commit (hs : Counted s) (hlog : site.logPrimary = true)
    (hg : Grounded (s.shelf.firm site) s) : Counted (s.commit site) := by
  unfold State.commit
  split
  · rename_i items waiters hship
    split
    · exact hs.land hlog hg hship _ (fun h => by cases h) _
    · exact hs
  · exact hs

theorem Counted.fail (hs : Counted s) (hlog : site.logPrimary = true)
    (hg : Grounded (s.shelf.firm site) s) (landed : Bool) (rebased : Option ι) (msg : String) :
    Counted (s.fail site landed rebased msg) := by
  unfold State.fail
  split
  · rename_i items waiters hship
    dsimp only
    split
    · exact hs.land hlog hg hship _ (fun h => by cases h) _
    · exact hs.give_up hship _ _
  · exact hs

/-- An entry of the boat that has failed is cleared, and nobody had counted on it. -/
theorem Counted.clear (hs : Counted s) (o : ι) : Counted (s.clear site o) := by
  obtain heq | ⟨-, items, waiters, rebased, item, -, -, -, heq⟩ := clear_cases site s o
  · rwa [heq]
  · rw [heq]
    have hle (o' : ι) : (s.erase o item.expectedSeq).committedSeq o' ≤ s.committedSeq o' := by
      change (Function.update s.committed o ((s.committed o).take item.expectedSeq) o').length ≤
        (s.committed o').length
      by_cases ho : o' = o
      · rw [ho, Function.update_self, List.length_take]
        exact Nat.min_le_right _ _
      · rw [Function.update_of_ne ho]
    refine ⟨fun {o'} hsome => ?_, fun q hq hnone => ?_, fun f hf => ?_, hs.once⟩
    · obtain ⟨seq, hseq, hcount⟩ := hs.live hsome
      exact ⟨seq, hseq, (hle o').trans hcount⟩
    · exact (hle q.1).trans (hs.parked q hq hnone)
    · exact (hle f.object).trans (hs.fetched f hf)

theorem Counted.startFetch (hs : Counted s) (hlog : site.logPrimary = true) (hwhole : e.Whole)
    (o : ι) : Counted (s.startFetch site e o) := by
  have hnothing : (e.folds o).getD 0 = 0 := by
    cases hread : e.folds o with
    | none => rfl
    | some missed => exact hwhole o missed (.inl hread)
  unfold State.startFetch State.recoverTouching
  dsimp only
  rw [if_pos hlog, hnothing]
  split_ifs
  · exact hs
  · refine ⟨hs.live, hs.parked, fun f hf => ?_, hs.once⟩
    rcases List.mem_append.mp hf with hold | hnew
    · exact hs.fetched f hold
    · rw [List.mem_singleton.mp hnew]
      exact le_refl (s.committedSeq o)

theorem Counted.quiet (hs : Counted s) : Counted { s with outbox := [] } :=
  ⟨hs.live, hs.parked, hs.fetched, hs.once⟩

theorem Counted.step (hs : Counted s) (hlog : site.logPrimary = true)
    (hg : Grounded (s.shelf.firm site) s) {m : Move ι Img Sql × Env ι} (halone : Alone s m.1)
    (hwhole : m.2.Whole) (ht : (s.step site m).torn = false) : Counted (s.step site m) := by
  obtain ⟨move, e⟩ := m
  replace hs : Counted { s with outbox := [] } := hs.quiet
  replace hg : Grounded (s.shelf.firm site) { s with outbox := [] } := hg.quiet
  have hhandle {next : State ι Img Sql Row} (h : Counted next) :
      Counted (State.handle { s with outbox := [] } next) := by
    unfold State.handle
    split
    · exact hs
    · exact h
  unfold State.step at ht ⊢
  cases move with
  | run t =>
    dsimp only at ht ⊢
    unfold State.handle at ht ⊢
    split
    · exact hs
    · rename_i hrunning
      rw [if_neg hrunning] at ht
      have hfold : FoldsDurable (s.shelf.firm site) e { s with outbox := [] } := by
        intro _ o missed hread
        rw [hwhole o missed hread]
        exact fold_current hlog o
      have hcaught := hg.catchUp (t := t) hfold fun _ _ f hf hin => by
        have hnot := halone f.object hin
        have hfetching : s.fetching f.object = true := List.any_eq_true.mpr ⟨f, hf, by simp⟩
        rw [hnot] at hfetching
        cases hfetching
      have hexecuted := hcaught.execute (t := t) (fun _ => torn_maybeLaunch ht)
        (hfold.same same_catchUp)
      exact ((hs.catchUp hwhole).execute hwhole).maybeLaunch hexecuted.matched
  | startFetch o => exact hs.startFetch hlog hwhole o
  | activated i ok =>
    dsimp only
    split
    · exact hs
    · rename_i f hf
      exact hhandle (hs.onActivated hlog hf)
  | shipDone => exact hhandle (hs.onShipDone hlog hg)
  | shutdown => exact hhandle (hs.shutdown hg.matched)
  | shed => exact hhandle (hs.shed hg.matched)
  | recheckPolls => exact hhandle (hs.recheckPolls hwhole)
  | cancelPoll o conn frame =>
    exact hhandle (hs.talks ⟨rfl, rfl, rfl, rfl, rfl, rfl, rfl, rfl, rfl⟩ fun q hq =>
      (List.mem_filter.mp hq).1)
  | release o => exact halone.elim
  | arrive o => exact halone.elim
  | commit => exact hs.commit hlog hg
  | fail landed rebased msg => exact hs.fail hlog hg landed rebased msg
  | clear o => exact hs.clear o
  | promote o =>
    dsimp only
    unfold State.promote
    split
    · split
      · rw [if_pos (by simp [hlog])]
        exact hs
      · exact hs
    · exact hs
  | recover o =>
    dsimp only
    unfold State.recoverTouching
    rw [if_pos hlog]
    exact hs
  | forget i =>
    dsimp only
    unfold State.forget
    split
    · exact hs
    · split
      · exact ⟨hs.live, hs.parked, hs.fetched, hs.once⟩
      · exact hs
  | peer o image => exact halone.elim
  | peerClear o seq => exact halone.elim

end Fafo.Polls
