import Fafo.Apply
import Fafo.Barrier
import Fafo.BoatsKept
import Fafo.DurablePolls
import Fafo.HintsKept
import Fafo.SnapshotsKept

/-! Each model of a worker looks at another part of it, and all of them do the same to its boats. -/
namespace Fafo.Snapshots

open Boats (Goes Voyage)

variable {ι : Type} [DecidableEq ι] {site : Site ι} {e : Env ι} {s : State ι}

theorem boats_refreshIfStale (s : State ι) (object : ι) :
    (s.refreshIfStale e object).boats = s.boats := by
  unfold State.refreshIfStale
  split
  · rfl
  · dsimp only
    split
    · rfl
    · rfl

theorem boats_refoldCleanBase (s : State ι) (object : ι) :
    (s.refoldCleanBase site e object).boats = s.boats := by
  unfold State.refoldCleanBase
  split
  · rfl
  split
  · rfl
  · rfl

theorem boats_prepare (participants : List ι) (readOnly : Bool) (s : State ι) :
    (s.prepare site e participants readOnly).boats = s.boats := by
  unfold State.prepare
  split
  · induction participants generalizing s with
    | nil => rfl
    | cons o participants ih => exact (ih _).trans (boats_refreshIfStale s o)
  · induction participants generalizing s with
    | nil => rfl
    | cons o participants ih => exact (ih _).trans (boats_refoldCleanBase s o)

theorem voyage_revertClosure (limit : Nat) (seed : List ι) :
    Voyage limit s.boats (s.revertClosure seed).boats := (Goes.revert seed).voyage

theorem voyage_apply (limit : Nat) (participants : List ι) (readOnly : Bool) (t : Nat) :
    Voyage limit s.boats (s.apply e participants readOnly t).boats := by
  unfold State.apply
  split
  · exact .refl
  split
  · exact .refl
  · split
    · exact .refl
    · exact voyage_revertClosure limit _
  · dsimp only
    split
    · exact .refl
    · exact (Goes.apply _ _).voyage

theorem voyage_maybeLaunch (s : State ι) :
    Voyage site.maxBoatBytes s.boats (s.maybeLaunch site e).boats := by
  have hreverted : Voyage site.maxBoatBytes s.boats (s.revertOrphaned e).boats := by
    unfold State.revertOrphaned
    dsimp only
    split
    · exact .refl
    · exact voyage_revertClosure _ _
  refine hreverted.trans ?_
  unfold State.maybeLaunch State.launch
  split
  · exact .refl
  next hidle =>
  dsimp only
  split
  · exact (Goes.leave (Boats.idle_of_not hidle)).voyage
  · exact (Goes.strand (Boats.idle_of_not hidle)).voyage

theorem voyage_onShipDone (s : State ι) :
    Voyage site.maxBoatBytes s.boats (s.onShipDone site e).boats := by
  unfold State.onShipDone
  split
  · next ok objects _ hinflight =>
    refine .trans ?_ (voyage_maybeLaunch _)
    have harrived : Voyage site.maxBoatBytes s.boats { s.boats with inflight := none } :=
      (Goes.arrive objects hinflight).voyage
    split
    · exact harrived
    · exact harrived.trans (Goes.revert objects).voyage
  · exact .refl

theorem voyage_step (s : State ι) (m : Move ι × Env ι) :
    Voyage site.maxBoatBytes s.boats (s.step site m).boats := by
  obtain ⟨m, e⟩ := m
  cases m with
  | run participants readOnly =>
    have hprepared : ({ s with txnsExecuted := s.txnsExecuted + 1 }.prepare site e participants
        readOnly).boats = s.boats := boats_prepare ..
    rw [← hprepared]
    exact (voyage_apply _ participants readOnly s.txnsExecuted).trans (voyage_maybeLaunch _)
  | fetch object => exact .refl
  | read i =>
    change Voyage _ _ (s.read i).boats
    unfold State.read
    split
    · exact .refl
    · exact .refl
  | activated i ok =>
    change Voyage _ _ (s.onActivated e i ok).boats
    unfold State.onActivated
    split
    · exact .refl
    · dsimp only
      split
      · split
        · exact .refl
        · exact .refl
      · exact .refl
  | recheckPolls object =>
    change Voyage _ _ (s.refreshIfStale e object).boats
    rw [boats_refreshIfStale]
  | shed queued => exact .refl
  | reacquire object =>
    change Voyage _ _ (s.reacquire e object).boats
    unfold State.reacquire
    split
    · exact .refl
    · exact .refl
  | maybeLaunch => exact voyage_maybeLaunch s
  | prewrite =>
    change Voyage _ _ s.prewrite.boats
    unfold State.prewrite
    split
    · split
      · exact .refl
      · exact .refl
    · exact .refl
  | commit acked =>
    change Voyage _ _ (s.commit acked).boats
    unfold State.commit
    split
    · split
      · exact .refl
      · exact .refl
    · exact .refl
  | sink =>
    change Voyage _ _ s.sink.boats
    unfold State.sink
    split
    · exact .refl
    · exact .refl
  | shipDone => exact voyage_onShipDone s
  | boot => exact Goes.boot.voyage

/-- The books are in order throughout, whatever images and seqs do. -/
theorem booked_run (site : Site ι) (moves : List (Move ι × Env ι)) :
    Runs.Throughout (State.step site) (fun s => s.boats.Booked) {} moves :=
  Runs.invariant (fun s m => (voyage_step s m).booked) (fun _ h => h) Boats.booked_empty moves

end Fafo.Snapshots

namespace Fafo.Apply

variable {O D ω : Type} [DecidableEq O]

/-- A failed commit reverts the same objects and kills the same transactions, where only the
participants of what is pending are kept. -/
theorem revertClosure_boats {w : Worker O D} {b : Boats O ω}
    (h : w.pendingTxns = b.pending.map AppliedTxn.participants) (seed : List O) :
    (revertClosure w seed).pendingTxns =
        (b.reverted seed).pending.map AppliedTxn.participants ∧
      ∀ id, (revertClosure w seed).objects id =
        if id ∈ b.closure seed then none else w.objects id := by
  have hclosure : Groups.closure w.pendingTxns seed = b.closure seed := by
    rw [h]
    rfl
  refine ⟨?_, fun id => ?_⟩
  · rw [Boats.reverted_pending, revertClosure, hclosure, h, List.filter_map]
    rfl
  · rw [revertClosure, hclosure]

end Fafo.Apply

namespace Fafo.Barrier

open Boats (Goes Voyage)

variable {ι : Type} [DecidableEq ι] {limits : Limits}

theorem voyage_maybeLaunch (s : State ι) :
    Voyage limits.maxBoatBytes s.boats (s.maybeLaunch limits).boats := by
  unfold State.maybeLaunch
  split
  · exact .refl
  · next hidle => exact (Goes.leave (Boats.idle_of_not hidle)).voyage

theorem voyage_launching {s s' : State ι} (h : Voyage limits.maxBoatBytes s.boats s'.boats) :
    Voyage limits.maxBoatBytes s.boats (s'.maybeLaunch limits).boats :=
  h.trans (voyage_maybeLaunch s')

theorem voyage_step (s : State ι) (m : Move ι) :
    Voyage limits.maxBoatBytes s.boats (s.step limits m).boats := by
  cases m with
  | write w bytes =>
    change Voyage _ _ (s.write limits w bytes).boats
    unfold State.write
    dsimp only
    split
    · exact voyage_launching .refl
    · exact voyage_launching (Goes.apply _ _).voyage
  | land =>
    change Voyage _ _ s.land.boats
    unfold State.land
    split
    · exact .refl
    · exact .refl
  | shipDone unpromoted bytes =>
    change Voyage _ _ (s.shipDone limits unpromoted bytes).boats
    unfold State.shipDone
    split
    · next hlanded =>
      obtain ⟨objects, hinflight⟩ :=
        Option.isSome_iff_exists.mp (Bool.and_eq_true_iff.mp hlanded).1
      refine voyage_launching ?_
      have harrived : Voyage limits.maxBoatBytes s.boats { s.boats with inflight := none } :=
        (Goes.arrive objects hinflight).voyage
      dsimp only
      split
      · exact harrived
      · exact harrived.trans (Goes.apply _ _).voyage
    · exact .refl
  | launch => exact voyage_maybeLaunch s

/-- The books are in order throughout, whoever is answered when. -/
theorem booked_run (limits : Limits) (moves : List (Move ι)) :
    Runs.Throughout (State.step limits) (fun s => s.boats.Booked) {} moves :=
  Runs.invariant (fun s m => (voyage_step s m).booked) (fun _ h => h) Boats.booked_empty moves

end Fafo.Barrier

namespace Fafo.Hints

open Boats (Goes Voyage)

variable {ι : Type} [DecidableEq ι] {site : Site ι} {s : State ι} {w : Nat}

/-- Only an object of the boat that sank is found rebased. -/
def Reported (s : State ι) (m : Move ι × Env ι) : Prop :=
  ∀ w object, m.1 = .shipDone w (.sank (some object)) →
    ∀ objects, (s.workers w).boats.inflight = some objects → object ∈ objects

omit [DecidableEq ι] in
theorem boats_setWorker (worker : Worker ι) (v : Nat) :
    ((s.setWorker w worker).workers v).boats =
      if v = w then worker.boats else (s.workers v).boats := by
  split
  · next hv =>
    subst hv
    rw [setWorker_self]
  · next hv => rw [setWorker_ne worker hv]

theorem voyage_revert (limit : Nat) (cause : Cause) (seed : List ι) (aboard : List Rider)
    (s : State ι) (v : Nat) :
    Voyage limit (s.workers v).boats ((s.revert cause w seed aboard).workers v).boats := by
  change Voyage limit _ ((s.setWorker w _).workers v).boats
  rw [boats_setWorker]
  split
  · next hv =>
    subst hv
    exact (Goes.revert seed).voyage
  · exact .refl

theorem voyage_maybeLaunch (readable : Bool) (s : State ι) (v : Nat) :
    Voyage site.maxBoatBytes (s.workers v).boats
      ((s.maybeLaunch site readable w).workers v).boats := by
  have hreverted : Voyage site.maxBoatBytes (s.workers v).boats
      ((s.revertOrphaned site w).workers v).boats := by
    unfold State.revertOrphaned
    split
    · exact .refl
    · exact voyage_revert _ _ _ _ s v
  refine hreverted.trans ?_
  unfold State.maybeLaunch State.launch
  dsimp only
  split
  · exact .refl
  next hidle =>
  split
  · rw [boats_setWorker]
    split
    · next hv =>
      subst hv
      exact (Goes.leave (Boats.idle_of_not hidle)).voyage
    · exact .refl
  · change Voyage _ _ ((State.setWorker _ w _).workers v).boats
    rw [boats_setWorker]
    split
    · next hv =>
      subst hv
      exact (Goes.strand (Boats.idle_of_not hidle)).voyage
    · exact .refl

/-- An object is given up, or nothing happens. -/
theorem relinquish_cases (claim : Claim) (object : ι) (v : Nat) :
    ((s.relinquish claim w object).workers v).boats = (s.workers v).boats ∨
      v = w ∧ ((s.relinquish claim w object).workers v).boats =
        (s.workers v).boats.clean object := by
  have hgiven : ∀ (s' : State ι) (g : Prop) [Decidable g],
      s'.workers = (s.setWorker w { s.workers w with
        boats := (s.workers w).boats.clean object }).workers →
      ((if g then s' else s).workers v).boats = (s.workers v).boats ∨
        v = w ∧ ((if g then s' else s).workers v).boats = (s.workers v).boats.clean object := by
    intro s' g _ hworkers
    split
    · rw [hworkers, boats_setWorker]
      split
      · next hv =>
        subst hv
        exact .inr ⟨rfl, rfl⟩
      · exact .inl rfl
    · exact .inl rfl
  unfold State.relinquish
  dsimp only
  split
  · exact hgiven _ _ rfl
  · exact hgiven _ _ rfl
  · exact .inl rfl

theorem voyage_shipDone {e : Env ι} {trip : Trip ι}
    (h : Reported s (.shipDone w trip, e)) (v : Nat) :
    Voyage site.maxBoatBytes (s.workers v).boats ((s.shipDone e w trip).workers v).boats := by
  unfold State.shipDone
  dsimp only
  split
  · exact .refl
  next objects hinflight =>
  generalize hnext : s.setWorker w ⟨{ (s.workers w).boats with inflight := none }, []⟩ = next
  have harrived : Voyage site.maxBoatBytes (s.workers v).boats (next.workers v).boats := by
    rw [← hnext, boats_setWorker]
    split
    · next hv =>
      subst hv
      exact (Goes.arrive objects hinflight).voyage
    · exact .refl
  refine harrived.trans ?_
  cases trip with
  | landed unpromoted =>
    change Voyage _ _ ((next.setWorker w _).workers v).boats
    rw [boats_setWorker]
    split
    · next hv =>
      subst hv
      dsimp only
      split
      · exact .refl
      · exact (Goes.apply _ _).voyage
    · exact .refl
  | sank rebased =>
    cases rebased with
    | none => exact voyage_revert _ _ _ _ next v
    | some object =>
      have hin : object ∈ objects := h w object rfl objects hinflight
      rcases relinquish_cases (s := next) (w := w) e.claim object v with hsame | ⟨rfl, hclean⟩
      · rw [← hsame]
        exact voyage_revert _ _ _ _ _ v
      · change Voyage _ _ ((State.setWorker _ v _).workers v).boats
        rw [boats_setWorker, if_pos rfl, hclean]
        exact (Goes.yieldTo object objects hin).voyage

theorem voyage_step {m : Move ι × Env ι} (h : Reported s m) (v : Nat) :
    Voyage site.maxBoatBytes (s.workers v).boats ((s.step site m).workers v).boats := by
  obtain ⟨m, e⟩ := m
  cases m with
  | own m =>
    change Voyage _ _ ((s.own site e m).workers v).boats
    unfold State.own
    split
    · exact .refl
    · exact .refl
  | reconcile w object =>
    change Voyage _ _ ((s.reconcile site w object).workers v).boats
    unfold State.reconcile
    split_ifs <;> exact .refl
  | lookUp w object =>
    change Voyage _ _ ((s.lookUp site w object).workers v).boats
    unfold State.lookUp
    split_ifs <;> exact .refl
  | lookOn i =>
    change Voyage _ _ ((s.lookOn i).workers v).boats
    unfold State.lookOn
    split
    · exact .refl
    · split
      · dsimp only
        split
        · split_ifs <;> exact .refl
        · split_ifs <;> exact .refl
        · exact .refl
      · exact .refl
  | write w changed optimistic =>
    change Voyage _ _ ((s.write site e w changed optimistic).workers v).boats
    unfold State.write
    dsimp only
    split
    · exact .refl
    · rw [boats_setWorker]
      split
      · next hv =>
        subst hv
        exact (Goes.apply _ _).voyage
      · exact .refl
  | commitFailed w committed => exact voyage_revert _ _ _ _ s v
  | shipDone w trip => exact (voyage_shipDone h v).trans (voyage_maybeLaunch _ _ v)
  | launch w => exact voyage_maybeLaunch _ s v
  | crash w hints =>
    change Voyage _ _ ((s.setWorker w {}).workers v).boats
    rw [boats_setWorker]
    split
    · exact Goes.boot.voyage
    · exact .refl

/-- The books are in order throughout, whatever the hints say. -/
theorem booked_run (site : Site ι) {s : State ι} (hs : ∀ v, (s.workers v).boats.Booked)
    {moves : List (Move ι × Env ι)} (h : Runs.Guarded (State.step site) Reported s moves) :
    Runs.Throughout (State.step site) (fun s => ∀ v, (s.workers v).boats.Booked) s moves :=
  h.throughout (fun _ _ hs hm v => (voyage_step hm v).booked (hs v)) (fun _ h => h) hs

end Fafo.Hints

namespace Fafo.Polls

variable {ι Img Sql Row : Type} [LinearOrder ι] {site : Site ι Img Sql Row} {e : Env ι}
variable {s s' s'' : State ι Img Sql Row} {t : Txn ι Sql}

/-- The boat in flight is what the ship task carries, and only an object of it is found rebased. -/
structure Crewed (s : State ι Img Sql Row) : Prop where
  matched : s.boats.inflight = s.ship.map fun ship => ship.items.map ShipItem.object
  rebased : ∀ {items waiters landed object},
    s.ship = some ⟨items, waiters, .failed landed (some object)⟩ →
      object ∈ items.map ShipItem.object

/-- What happens on shore, whatever boat is under way. -/
structure Ashore (site : Site ι Img Sql Row) (s s' : State ι Img Sql Row) : Prop where
  voyage : Boats.Voyage site.maxBoatBytes s.boats s'.boats
  inflight : s'.boats.inflight = s.boats.inflight
  ship : s'.ship = s.ship

/-- What happens on shore or at sea. -/
structure Sails (site : Site ι Img Sql Row) (s s' : State ι Img Sql Row) : Prop where
  voyage : Boats.Voyage site.maxBoatBytes s.boats s'.boats
  crewed : Crewed s'

theorem Ashore.of_same (hboats : s'.boats = s.boats) (hship : s'.ship = s.ship) :
    Ashore site s s' := ⟨by rw [hboats], by rw [hboats], hship⟩

theorem Ashore.refl (s : State ι Img Sql Row) : Ashore site s s := .of_same rfl rfl

theorem Ashore.trans (h : Ashore site s s') (h' : Ashore site s' s'') : Ashore site s s'' :=
  ⟨h.voyage.trans h'.voyage, h'.inflight.trans h.inflight, h'.ship.trans h.ship⟩

theorem Talks.ashore (h : Talks s s') : Ashore site s s' := .of_same h.boats h.ship

theorem SameStore.ashore (h : SameStore s s') : Ashore site s s' := .of_same h.boats h.ship

theorem Lands.ashore (h : Lands s s') : Ashore site s s' := .of_same h.boats h.ship

theorem Crewed.ashore (hs : Crewed s) (h : Ashore site s s') : Sails site s s' where
  voyage := h.voyage
  crewed := by
    refine ⟨?_, fun hship => hs.rebased (h.ship ▸ hship)⟩
    rw [h.inflight, h.ship, hs.matched]

theorem Sails.ashore (h : Sails site s s') (h' : Ashore site s' s'') : Sails site s s'' :=
  ⟨h.voyage.trans h'.voyage, (h.crewed.ashore h').crewed⟩

theorem ashore_revertClosure (seed : List ι) : Ashore site s (s.revertClosure seed) :=
  ⟨(Boats.Goes.revert seed).voyage, Boats.reverted_inflight .., rfl⟩

theorem ashore_revertOrphaned : Ashore site s (s.revertOrphaned e) := by
  unfold State.revertOrphaned
  dsimp only
  split
  · exact .refl s
  · exact ashore_revertClosure _

theorem ashore_register (po : PollOpts) (o : ι) (op : Op ι Sql) (results : List (OpResult Row)) :
    Ashore site s (s.register site e t po o op results) := by
  have hreg : Registered site e t po o op results s (s.register site e t po o op results) :=
    registered_register po o op results
  generalize s.register site e t po o op results = s' at hreg ⊢
  cases hreg with
  | answered => exact (talks_send _ _).ashore
  | refreshed => exact (same_refreshIfStale o).ashore.trans (talks_send _ _).ashore
  | @parked s' hfresh =>
    have hfresh : Ashore site s s' := by
      rcases hfresh with rfl | ⟨-, -, rfl⟩
      · exact .refl s'
      · exact (same_refreshIfStale o).ashore
    exact hfresh.trans (.of_same rfl rfl)

theorem ashore_settle (results : List (OpResult Row)) (changed : List ι) :
    Ashore site s (s.settle site e t results changed) := by
  unfold State.settle
  split
  · split
    · exact ashore_register ..
    · exact (talks_send _ _).ashore
  split
  · exact (talks_send _ _).ashore.trans (talks_firePolls _ _).ashore
  · obtain ⟨txn, -, -, hboats⟩ := boats_acknowledge site e t results changed s
    refine Ashore.trans ⟨?_, ?_, (live_acknowledge site e t results changed s).2.1⟩
      (talks_firePolls _ _).ashore
    · rw [hboats]
      exact (Boats.Goes.apply _ _).voyage
    · rw [hboats, Boats.applied_inflight]

theorem ashore_execute : Ashore site s (s.execute site e t) := by
  unfold State.execute
  have happlied : Applied site e t s (s.apply site e t) := applied_apply
  generalize s.apply site e t = applied at happlied ⊢
  cases happlied with
  | refused error => exact (talks_send _ _).ashore
  | half error seed => exact (ashore_revertClosure seed).trans (talks_send _ _).ashore
  | @wrote results images =>
    have hwrote : Ashore site s { s with
        live := fun o => if o ∈ t.participants then images o else s.live o } := .of_same rfl rfl
    exact hwrote.trans (ashore_settle results _)
  | read => exact ashore_settle _ _

/-- A boat leaves with a ship task for all that is on it. -/
theorem Crewed.launch (hs : Crewed s) : Sails site s (s.launch site e) := by
  unfold State.launch
  dsimp only
  split_ifs with hskip hread hlive
  · exact ⟨.refl, hs⟩
  · refine ⟨(Boats.Goes.leave (Boats.idle_of_not hskip)).voyage, ?_, fun hship => by cases hship⟩
    exact congrArg some (map_object_items (List.all_eq_true.mp hlive)).symm
  · exact hs.ashore (.of_same rfl rfl)
  · exact hs.ashore ⟨(Boats.Goes.strand (Boats.idle_of_not hskip)).voyage,
      Boats.ashore_inflight _ _, rfl⟩

theorem Crewed.maybeLaunch (hs : Crewed s) : Sails site s (s.maybeLaunch site e) := by
  have hreverted : Sails site s (s.revertOrphaned e) := hs.ashore ashore_revertOrphaned
  have hlaunched : Sails site (s.revertOrphaned e) (s.maybeLaunch site e) :=
    hreverted.crewed.launch
  exact ⟨hreverted.voyage.trans hlaunched.voyage, hlaunched.crewed⟩

theorem Sails.maybeLaunch (h : Sails site s s') : Sails site s (s'.maybeLaunch site e) :=
  ⟨h.voyage.trans h.crewed.maybeLaunch.voyage, h.crewed.maybeLaunch.crewed⟩

theorem ashore_landed (shipped promoted objects : List ι) :
    Ashore site s (s.landed site e shipped promoted objects) := by
  unfold State.landed
  dsimp only
  refine Ashore.trans ?_ (talks_firePolls _ _).ashore
  have hcounted : Ashore site s (if site.logPrimary then
      { s with logSeq := fun o => if o ∈ objects then (s.logSeq o).map (· + 1) else s.logSeq o }
      else s) := by
    split
    · exact .of_same rfl rfl
    · exact .refl s
  have hsoiled (s : State ι Img Sql Row) (unpromoted : List ι) :
      Ashore site s (if unpromoted.isEmpty then s
        else { s with boats := s.boats.applied e.bytes ⟨unpromoted, none⟩ }) := by
    split
    · exact .refl s
    · exact ⟨(Boats.Goes.apply _ _).voyage, Boats.applied_inflight _ _, rfl⟩
  exact hcounted.trans (hsoiled _ _)

/-- What was given up is among what is reverted. -/
theorem ashore_sunk {objects : List ι} {rebased : Option ι}
    (h : ∀ object, rebased = some object → object ∈ objects) :
    Ashore site s ((s.relinquish e rebased).revertClosure objects) := by
  unfold State.relinquish
  split
  · exact ashore_revertClosure objects
  next object =>
  split
  · refine ⟨(Boats.Goes.yieldTo object objects (h object rfl)).voyage, ?_, rfl⟩
    exact (Boats.reverted_inflight _ _).trans (Boats.clean_inflight _ _)
  · exact ashore_revertClosure objects

theorem Crewed.onShipDone (hs : Crewed s) : Sails site s (s.onShipDone site e) := by
  have hdocked {objects : List ι} (hobjects : s.boats.inflight = some objects) :
      Sails site s { s with boats := { s.boats with inflight := none }, ship := none } :=
    ⟨(Boats.Goes.arrive objects hobjects).voyage, rfl, fun h => by cases h⟩
  unfold State.onShipDone
  split
  · rename_i items waiters promoted objects hship hobjects
    have hlanded := (hdocked hobjects).ashore
      (ashore_landed (e := e) (items.map ShipItem.object) promoted objects)
    exact hlanded.maybeLaunch.ashore talks_finishClosing.ashore
  · rename_i items waiters landed rebased objects hship hobjects
    have hmatched := hs.matched
    rw [hobjects, hship] at hmatched
    have hin : ∀ object, rebased = some object → object ∈ objects := by
      rintro object rfl
      rw [Option.some.inj hmatched]
      exact hs.rebased hship
    have hsunk := (hdocked hobjects).ashore (ashore_sunk (e := e) hin)
    exact hsunk.maybeLaunch.ashore talks_finishClosing.ashore
  · exact ⟨.refl, hs⟩

theorem Crewed.handle {next : State ι Img Sql Row} (hs : Crewed s) (h : Sails site s next) :
    Sails site s (s.handle next) := by
  unfold State.handle
  split
  · exact ⟨.refl, hs⟩
  · exact h

theorem ashore_recheckPolls : Ashore site s (s.recheckPolls site e) := by
  have hall : ∀ (objects : List ι) (s : State ι Img Sql Row),
      Ashore site s (objects.foldl (State.recheck site e) s) := by
    intro objects
    induction objects with
    | nil => exact .refl
    | cons o objects ih =>
      intro s
      obtain ⟨fresh, hsame, -, htalks, -⟩ := recheck_cases site e s o
      exact (hsame.ashore.trans htalks.ashore).trans (ih _)
  exact hall _ s

theorem ashore_release (o : ι) : Ashore site s (s.release o) := by
  unfold State.release
  split
  · exact .refl s
  · exact .of_same rfl rfl

theorem ashore_arrive (o : ι) : Ashore site s (s.arrive site e o) := by
  unfold State.arrive
  split
  · exact .of_same rfl rfl
  · exact .refl s

theorem ashore_onActivated (f : Fetch ι Img) (ok : Bool) :
    Ashore site s (s.onActivated site e f ok) := by
  unfold State.onActivated
  split
  · dsimp only
    split
    · exact .of_same rfl rfl
    · exact .of_same rfl rfl
  · exact .refl s

theorem ashore_startFetch (o : ι) : Ashore site s (s.startFetch site e o) := by
  unfold State.startFetch
  split
  · exact .refl s
  · exact (lands_recoverTouching site s o).1.ashore.trans (.of_same rfl rfl)

/-- The ship task comes to an end with the items that it had. -/
theorem Crewed.commit (hs : Crewed s) : Sails site s (s.commit site) := by
  unfold State.commit
  split
  · next items waiters hship =>
    split
    · have hlands : Lands s (s.land site items) := lands_land items
      refine ⟨?_, ?_, fun h => by cases h⟩
      · exact hlands.ashore.voyage
      · change (s.land site items).boats.inflight = _
        rw [hlands.boats, hs.matched, hship]
        rfl
    · exact ⟨.refl, hs⟩
  · exact ⟨.refl, hs⟩

theorem Crewed.fail (hs : Crewed s) (landed : Bool) (rebased : Option ι) (msg : String) :
    Sails site s (s.fail site landed rebased msg) := by
  unfold State.fail
  split
  · next items waiters hship =>
    have hlands : ∀ landed : Bool, Lands s (if landed then s.land site items else s) := by
      intro landed
      split
      · exact lands_land items
      · exact Lands.refl s
    refine ⟨(hlands _).ashore.voyage, ?_, fun h => ?_⟩
    · refine (congrArg Boats.inflight (hlands _).boats).trans ?_
      rw [hs.matched, hship]
      rfl
    · simp only [Option.some.injEq, Ship.mk.injEq, Voyage.failed.injEq] at h
      obtain ⟨rfl, -, -, hrebased⟩ := h
      exact of_decide_eq_true (Option.filter_eq_some_iff.mp hrebased).2
  · exact ⟨.refl, hs⟩

theorem Crewed.promote (hs : Crewed s) (o : ι) : Sails site s (s.promote site o) := by
  unfold State.promote
  split
  · next items waiters promoted hship =>
    split
    · split
      · exact ⟨.refl, hs⟩
      · refine ⟨.refl, ?_, fun h => by cases h⟩
        exact hs.matched.trans (by rw [hship]; rfl)
    · exact ⟨.refl, hs⟩
  · exact ⟨.refl, hs⟩

/-- Whatever happens, the worker does nothing else to its boats. -/
theorem sails_step (hs : Crewed s) (m : Move ι Img Sql × Env ι) :
    Sails site s (s.step site m) := by
  obtain ⟨m, e⟩ := m
  have hquiet : Ashore site s { s with outbox := [] } := .of_same rfl rfl
  have hs' : Crewed { s with outbox := [] } := (hs.ashore hquiet).crewed
  suffices h : Sails site { s with outbox := [] } (s.step site (m, e)) from
    ⟨hquiet.voyage.trans h.voyage, h.crewed⟩
  cases m with
  | run t =>
    refine hs'.handle ?_
    exact (hs'.ashore (same_catchUp.ashore.trans ashore_execute)).maybeLaunch
  | startFetch o => exact hs'.ashore (ashore_startFetch o)
  | activated i ok =>
    unfold State.step
    dsimp only
    split
    · exact ⟨.refl, hs'⟩
    · next f hf =>
      have hrest : Ashore site { s with outbox := [] }
          { s with outbox := [], fetches := s.fetches.eraseIdx i } := .of_same rfl rfl
      have hrest := hs'.ashore hrest
      exact hs'.handle (hrest.ashore (ashore_onActivated f ok))
  | shipDone => exact hs'.handle hs'.onShipDone
  | shutdown =>
    have hclosing : Ashore site { s with outbox := [] } { s with outbox := [], closing := true } :=
      .of_same rfl rfl
    refine hs'.handle ?_
    exact (hs'.ashore hclosing).maybeLaunch.ashore talks_finishClosing.ashore
  | shed => exact hs'.handle (hs'.ashore (.of_same rfl rfl))
  | recheckPolls => exact hs'.handle (hs'.ashore ashore_recheckPolls)
  | cancelPoll o conn frame => exact hs'.handle (hs'.ashore (.of_same rfl rfl))
  | release o => exact hs'.handle (hs'.ashore (ashore_release o))
  | arrive o => exact hs'.handle (hs'.ashore (ashore_arrive o))
  | commit => exact hs'.commit
  | fail landed rebased msg => exact hs'.fail landed rebased msg
  | clear o =>
    change Sails site _ (State.clear site o _)
    obtain heq | ⟨-, items, waiters, rebased, item, -, -, -, heq⟩ :=
      clear_cases site { s with outbox := [] } o
    · rw [heq]
      exact ⟨.refl, hs'⟩
    · rw [heq]
      exact hs'.ashore (.of_same rfl rfl)
  | promote o => exact hs'.promote o
  | recover o => exact hs'.ashore (lands_recoverTouching site _ o).1.ashore
  | forget i =>
    change Sails site _ (State.forget site i _)
    unfold State.forget
    split
    · exact ⟨.refl, hs'⟩
    · split
      · exact hs'.ashore (.of_same rfl rfl)
      · exact ⟨.refl, hs'⟩
  | peer o image =>
    change Sails site _ (State.peer site o image _)
    unfold State.peer
    split
    · exact hs'.ashore (.of_same rfl rfl)
    · split
      · exact ⟨.refl, hs'⟩
      · exact hs'.ashore (.of_same rfl rfl)
  | peerClear o seq =>
    change Sails site _ (State.peerClear site o seq _)
    unfold State.peerClear
    split
    · exact hs'.ashore (.of_same rfl rfl)
    · exact ⟨.refl, hs'⟩

/-- The books are in order throughout, whoever polls. -/
theorem booked_run (site : Site ι Img Sql Row) (promoted : ι → Img)
    (moves : List (Move ι Img Sql × Env ι)) :
    Runs.Throughout (State.step site) (fun s => s.boats.Booked) { promoted } moves := by
  have hstart : Crewed ({ promoted } : State ι Img Sql Row) := ⟨rfl, fun h => by cases h⟩
  refine Runs.invariant (I := fun s => Crewed s ∧ s.boats.Booked) ?_ (fun _ h => h.2)
    ⟨hstart, Boats.booked_empty⟩ moves
  rintro s m ⟨hs, hbooked⟩
  have hsails : Sails site s (s.step site m) := sails_step hs m
  exact ⟨hsails.crewed, hsails.voyage.booked hbooked⟩

end Fafo.Polls
