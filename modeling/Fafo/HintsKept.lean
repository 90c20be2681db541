import Fafo.Bookkeeping
import Fafo.Library.Runs
import Fafo.RoutingHints

/-! Which acknowledged writes are lost, and when the routing hints are to blame. -/
namespace Fafo.Hints

/-- The writes of a worker that have not landed. -/
def Worker.unshipped {ι : Type} (worker : Worker ι) : List Nat :=
  (worker.aboard ++ worker.boats.pending.filterMap AppliedTxn.waiter).map Rider.txn

/-- Where a write can be. -/
def Accounted {ι : Type} (s : State ι) (t : Nat) : Prop :=
  (∃ w, t ∈ (s.workers w).unshipped) ∨ t ∈ s.durable ∨ ∃ l ∈ s.losses, t ∈ l.lost

/-- No write of an owned object is reverted as orphaned, and an acknowledged one is lost only by a
crash or with its boat. -/
def Loss.Fair {ι : Type} (l : Loss ι) : Prop :=
  (l.cause = .orphaned → l.mine = []) ∧ (l.acked ≠ [] → l.cause = .crash ∨ l.cause = .failedBoat)

/-- The acknowledged writes that are gone were lost fairly. -/
structure Kept {ι : Type} (s : State ι) : Prop where
  accounted : ∀ t ∈ s.acked, Accounted s t
  fair : ∀ l ∈ s.losses, l.Fair

variable {ι : Type} [DecidableEq ι]

/-- No dirty object is routed elsewhere that hangs together with a write of an owned object. -/
def HintsAgree (site : Site ι) (s : State ι) (w : Nat) : Prop :=
  ∀ d ∈ (s.workers w).boats.dirty.keys, ∀ txn ∈ (s.workers w).boats.pending,
    ∀ o ∈ txn.participants, o ∈ (s.workers w).boats.closure [d] → s.mine w o = true →
      s.ownerOf site d = w

/-- A launch finds hints that agree, and no failed commit reverts an acknowledged write of an owned
object. -/
def Heeded (site : Site ι) (s : State ι) (m : Move ι × Env ι) : Prop :=
  (∀ w, (s.handle site m.2 m.1).2 = some w → HintsAgree site (s.handle site m.2 m.1).1 w) ∧
  ∀ w committed, m.1 = .commitFailed w committed →
    ∀ txn ∈ (s.workers w).boats.killed committed, ∀ r, txn.waiter = some r → r.acked = true →
      ∀ o ∈ txn.participants, s.mine w o = false

variable {site : Site ι} {s s' : State ι} {w : Nat}

section Loss

section

omit [DecidableEq ι]

theorem mem_mine {cause : Cause} {killed : List (AppliedTxn ι Rider)} {aboard : List Rider}
    {o : ι} : o ∈ (s.loss cause w killed aboard).mine ↔
      (∃ txn ∈ killed, o ∈ txn.participants) ∧ s.mine w o = true := by
  rw [State.loss, List.mem_filter, List.mem_flatMap]

theorem touchesMine_iff {txn : AppliedTxn ι Rider} :
    s.touchesMine w txn = true ↔ ∃ o ∈ txn.participants, s.mine w o = true := List.any_eq_true

/-- No acknowledged write of an owned object is among what was killed. -/
theorem acked_nil_iff {cause : Cause} {killed : List (AppliedTxn ι Rider)} {aboard : List Rider} :
    (s.loss cause w killed aboard).acked = [] ↔
      ∀ txn ∈ killed, ∀ r, txn.waiter = some r → r.acked = true →
        ∀ o ∈ txn.participants, s.mine w o = false := by
  simp only [State.loss]
  rw [List.filterMap_eq_nil_iff]
  constructor
  · intro h txn htxn r hr hacked o ho
    apply Bool.eq_false_of_not_eq_true
    intro hmine
    have hrider : r ∈ (killed.filter (s.touchesMine w)).filterMap AppliedTxn.waiter :=
      List.mem_filterMap.mpr
        ⟨txn, List.mem_filter.mpr ⟨htxn, touchesMine_iff.mpr ⟨o, ho, hmine⟩⟩, hr⟩
    have hnone := h r hrider
    rw [if_pos hacked] at hnone
    cases hnone
  · intro h r hr
    obtain ⟨txn, htxn, hwaiter⟩ := List.mem_filterMap.mp hr
    obtain ⟨hkilled, htouches⟩ := List.mem_filter.mp htxn
    obtain ⟨o, ho, hmine⟩ := touchesMine_iff.mp htouches
    apply if_neg
    intro hacked
    have hnot := h txn hkilled r hwaiter hacked o ho
    rw [hmine] at hnot
    cases hnot

end

/-- An orphan revert is fair exactly when the hints agree. -/
theorem orphaned_fair_iff :
    (s.loss .orphaned w ((s.workers w).boats.killed (s.orphaned site w)) []).Fair ↔
      HintsAgree site s w := by
  constructor
  · intro h d hd txn htxn o ho hclosure hmine
    by_contra howner
    have horphaned : d ∈ s.orphaned site w :=
      List.mem_filter.mpr ⟨hd, decide_eq_true howner⟩
    -- what hangs together with the orphan goes down with it
    have hdown : o ∈ (s.workers w).boats.closure (s.orphaned site w) :=
      Groups.mem_closure_iff.mpr ⟨d, horphaned, hclosure⟩
    have hkilled : txn ∈ (s.workers w).boats.killed (s.orphaned site w) :=
      List.mem_filter.mpr ⟨htxn, decide_eq_true ⟨o, ho, hdown⟩⟩
    exact absurd (h.1 rfl) (List.ne_nil_of_mem (mem_mine.mpr ⟨⟨txn, hkilled, ho⟩, hmine⟩))
  · intro h
    have hnone : ∀ txn ∈ (s.workers w).boats.killed (s.orphaned site w),
        ∀ o ∈ txn.participants, s.mine w o = false := by
      intro txn htxn o ho
      apply Bool.eq_false_of_not_eq_true
      intro hmine
      have hdown := Boats.killed_reverted _ _ htxn ho
      obtain ⟨d, hd, hclosure⟩ := Groups.mem_closure_iff.mp hdown
      obtain ⟨hdirty, howner⟩ := List.mem_filter.mp hd
      exact of_decide_eq_true howner
        (h d hdirty txn (List.mem_filter.mp htxn).1 o ho hclosure hmine)
    constructor
    · intro _
      apply List.eq_nil_iff_forall_not_mem.mpr
      intro o ho
      obtain ⟨⟨txn, htxn, hmem⟩, hmine⟩ := mem_mine.mp ho
      rw [hnone txn htxn o hmem] at hmine
      cases hmine
    · intro hacked
      exact absurd (acked_nil_iff.mpr fun txn htxn r _ _ o ho => hnone txn htxn o ho) hacked

end Loss

section

omit [DecidableEq ι]

/-- A step of one worker's boats leaves every write accounted for. -/
theorem Accounted.step {t : Nat} (h : Accounted s t)
    (hothers : ∀ v, v ≠ w → s'.workers v = s.workers v)
    (hunshipped : t ∈ (s.workers w).unshipped → Accounted s' t)
    (hdurable : ∀ t ∈ s.durable, t ∈ s'.durable) (hlosses : ∀ l ∈ s.losses, l ∈ s'.losses) :
    Accounted s' t := by
  rcases h with ⟨v, hv⟩ | hd | ⟨l, hl, hlost⟩
  · by_cases hvw : v = w
    · subst hvw
      exact hunshipped hv
    · exact .inl ⟨v, by rwa [hothers v hvw]⟩
  · exact .inr (.inl (hdurable t hd))
  · exact .inr (.inr ⟨l, hlosses l hl, hlost⟩)

theorem Accounted.same {t : Nat} (h : Accounted s t) (hworkers : s'.workers = s.workers)
    (hdurable : s'.durable = s.durable) (hlosses : s'.losses = s.losses) : Accounted s' t := by
  unfold Accounted
  rwa [hworkers, hdurable, hlosses]

theorem setWorker_self (worker : Worker ι) : (s.setWorker w worker).workers w = worker :=
  Function.update_self ..

theorem setWorker_ne (worker : Worker ι) {v : Nat} (hv : v ≠ w) :
    (s.setWorker w worker).workers v = s.workers v := Function.update_of_ne hv ..

/-- The riders aboard, and those of pending writes. -/
theorem mem_riders {aboard : List Rider} {txns : List (AppliedTxn ι Rider)} {t : Nat} :
    t ∈ (aboard ++ txns.filterMap AppliedTxn.waiter).map Rider.txn ↔
      (∃ r ∈ aboard, r.txn = t) ∨ ∃ txn ∈ txns, ∃ r, txn.waiter = some r ∧ r.txn = t := by
  simp only [List.mem_map, List.mem_append, List.mem_filterMap]
  constructor
  · rintro ⟨r, haboard | ⟨txn, htxn, hr⟩, ht⟩
    · exact .inl ⟨r, haboard, ht⟩
    · exact .inr ⟨txn, htxn, r, hr, ht⟩
  · rintro (⟨r, haboard, ht⟩ | ⟨txn, htxn, r, hr, ht⟩)
    · exact ⟨r, .inl haboard, ht⟩
    · exact ⟨r, .inr ⟨txn, htxn, hr⟩, ht⟩

theorem mem_unshipped {worker : Worker ι} {t : Nat} : t ∈ worker.unshipped ↔
    (∃ r ∈ worker.aboard, r.txn = t) ∨
      ∃ txn ∈ worker.boats.pending, ∃ r, txn.waiter = some r ∧ r.txn = t := mem_riders

theorem mem_lost {cause : Cause} {killed : List (AppliedTxn ι Rider)} {aboard : List Rider}
    {t : Nat} : t ∈ (s.loss cause w killed aboard).lost ↔
      (∃ r ∈ aboard, r.txn = t) ∨ ∃ txn ∈ killed, ∃ r, txn.waiter = some r ∧ r.txn = t := mem_riders

end

/-- Besides, nobody is aboard when no boat is in flight. -/
structure Sound (s : State ι) : Prop extends Kept s where
  idle : ∀ w, (s.workers w).boats.inflight = none → (s.workers w).aboard = []

omit [DecidableEq ι] in
/-- Only one worker changes, and it is idle only without riders. -/
theorem Sound.of_kept (h : Kept s') (hidle : ∀ v, (s.workers v).boats.inflight = none →
    (s.workers v).aboard = []) (hothers : ∀ v, v ≠ w → s'.workers v = s.workers v)
    (hself : (s'.workers w).boats.inflight = none → (s'.workers w).aboard = []) : Sound s' := by
  refine ⟨h, fun v hv => ?_⟩
  by_cases hvw : v = w
  · subst hvw
    exact hself hv
  · rw [hothers v hvw] at hv ⊢
    exact hidle v hv

omit [DecidableEq ι] in
/-- Nothing happens to the boats. -/
theorem Sound.same (h : Sound s) (hworkers : s'.workers = s.workers) (hacked : s'.acked = s.acked)
    (hdurable : s'.durable = s.durable) (hlosses : s'.losses = s.losses) : Sound s' := by
  refine ⟨⟨fun t ht => ?_, fun l hl => h.fair l (hlosses ▸ hl)⟩, fun w hw => ?_⟩
  · exact (h.accounted t (hacked ▸ ht)).same hworkers hdurable hlosses
  · rw [hworkers] at hw ⊢
    exact h.idle w hw

/-- A revert keeps what it does not kill, and records what it does. -/
theorem kept_revert {cause : Cause} {seed : List ι} {aboard : List Rider}
    (haccounted : ∀ t ∈ s.acked, Accounted s t ∨ ∃ r ∈ aboard, r.txn = t)
    (hfair : ∀ l ∈ s.losses, l.Fair)
    (hnew : (s.loss cause w ((s.workers w).boats.killed seed) aboard).Fair) :
    Kept (s.revert cause w seed aboard) := by
  refine ⟨fun t ht => ?_, fun l hl => ?_⟩
  · rcases haccounted t ht with h | hlost
    · refine h.step (w := w) (fun v hv => setWorker_ne _ hv) (fun hmem => ?_) (fun _ h => h)
        (fun l hl => List.mem_cons_of_mem _ hl)
      rcases mem_unshipped.mp hmem with haboard | ⟨txn, htxn, r, hr, ht⟩
      · refine .inl ⟨w, mem_unshipped.mpr (.inl ?_)⟩
        rwa [State.revert, setWorker_self]
      · by_cases hmeets : Groups.Meets txn.participants ((s.workers w).boats.closure seed)
        · exact .inr (.inr ⟨_, List.mem_cons_self, mem_lost.mpr (.inr ⟨txn,
            List.mem_filter.mpr ⟨htxn, decide_eq_true hmeets⟩, r, hr, ht⟩)⟩)
        · refine .inl ⟨w, mem_unshipped.mpr (.inr ⟨txn, ?_, r, hr, ht⟩)⟩
          rw [State.revert, setWorker_self, Boats.reverted_pending]
          exact List.mem_filter.mpr ⟨htxn, decide_eq_true hmeets⟩
    · exact .inr (.inr ⟨_, List.mem_cons_self, mem_lost.mpr (.inl hlost)⟩)
  · rcases List.mem_cons.mp hl with rfl | hl
    · exact hnew
    · exact hfair l hl

omit [DecidableEq ι] in
theorem fair_of_cause {l : Loss ι} (h : l.cause = .crash ∨ l.cause = .failedBoat) : l.Fair := by
  refine ⟨fun horphaned => ?_, fun _ => h⟩
  rcases h with h | h <;> cases horphaned.symm.trans h

/-- A revert of what was not shipped, if the loss is fair. -/
theorem Sound.revert (h : Sound s) {cause : Cause} {seed : List ι}
    (hnew : (s.loss cause w ((s.workers w).boats.killed seed) []).Fair) :
    Sound (s.revert cause w seed []) := by
  refine Sound.of_kept (w := w) (kept_revert (fun t ht => .inl (h.accounted t ht)) h.fair hnew)
    h.idle (fun v hv => setWorker_ne _ hv) fun hself => ?_
  rw [State.revert, setWorker_self] at hself ⊢
  exact h.idle w ((Boats.reverted_inflight _ _).symm.trans hself)

/-- A cut leaves no write out. -/
theorem mem_cut_riders {b : Boats ι Rider} {limit : Nat} {txn : AppliedTxn ι Rider}
    (htxn : txn ∈ b.pending) {r : Rider} (hr : txn.waiter = some r) :
    r ∈ b.boarding (b.cut limit) ∨ txn ∈ (b.ashore (b.cut limit)).pending := by
  obtain ⟨i, hi⟩ := List.mem_iff_getElem?.mp htxn
  rcases Boats.mem_cut limit (List.getElem?_eq_some_iff.mp hi).1 with hsel | hleft
  · left
    exact List.mem_filterMap.mpr ⟨i, hsel, by rw [hi, Option.bind_some, hr]⟩
  · right
    rw [Boats.ashore_pending]
    exact List.mem_filterMap.mpr ⟨i, (List.mem_insertionSort _).mpr hleft, hi⟩

/-- With nobody aboard, who waits leaves with the cut or stays on shore. -/
theorem unshipped_cut {worker : Worker ι} {t : Nat} (haboard : worker.aboard = [])
    (h : t ∈ worker.unshipped) (limit : Nat) :
    (∃ r ∈ worker.boats.boarding (worker.boats.cut limit), r.txn = t) ∨
      ∃ txn ∈ (worker.boats.ashore (worker.boats.cut limit)).pending,
        ∃ r, txn.waiter = some r ∧ r.txn = t := by
  rcases mem_unshipped.mp h with ⟨r, hr, -⟩ | ⟨txn, htxn, r, hr, ht⟩
  · rw [haboard] at hr
    cases hr
  · rcases mem_cut_riders htxn hr with hleaves | hashore
    · exact .inl ⟨r, hleaves, ht⟩
    · exact .inr ⟨txn, hashore, r, hr, ht⟩

theorem Sound.launch (h : Sound s) (readable : Bool) : Sound (s.launch site readable w) := by
  unfold State.launch
  dsimp only
  split_ifs with hidle hreadable
  · exact h
  · -- the riders of the cut are aboard now
    rw [Bool.or_eq_true, not_or, Option.isSome_iff_ne_none, not_not] at hidle
    refine Sound.of_kept (w := w) ⟨fun t ht => ?_, h.fair⟩ h.idle
      (fun v hv => setWorker_ne _ hv) fun hself => ?_
    · refine (h.accounted t ht).step (w := w) (fun v hv => setWorker_ne _ hv) (fun hmem => ?_)
        (fun _ h => h) (fun _ h => h)
      refine .inl ⟨w, ?_⟩
      rw [setWorker_self]
      exact mem_unshipped.mpr (unshipped_cut (h.idle w hidle.1) hmem _)
    · rw [setWorker_self] at hself
      cases hself
  · -- or lost, if the boat cannot leave
    rw [Bool.or_eq_true, not_or, Option.isSome_iff_ne_none, not_not] at hidle
    refine Sound.of_kept (w := w) ⟨fun t ht => ?_, fun l hl => ?_⟩ h.idle
      (fun v hv => setWorker_ne _ hv) fun _ => ?_
    · refine (h.accounted t ht).step (w := w) (fun v hv => setWorker_ne _ hv) (fun hmem => ?_)
        (fun _ h => h) (fun l hl => List.mem_cons_of_mem _ hl)
      rcases unshipped_cut (h.idle w hidle.1) hmem site.maxBoatBytes with hleaves | hashore
      · exact .inr (.inr ⟨_, List.mem_cons_self, mem_lost.mpr (.inl hleaves)⟩)
      · refine .inl ⟨w, mem_unshipped.mpr (.inr ?_)⟩
        rw [setWorker_self]
        exact hashore
    · rcases List.mem_cons.mp hl with rfl | hl
      · exact fair_of_cause (.inr rfl)
      · exact h.fair l hl
    · rw [setWorker_self]

theorem Sound.maybeLaunch (h : Sound s) (readable : Bool) (hagree : HintsAgree site s w) :
    Sound (s.maybeLaunch site readable w) := by
  apply Sound.launch
  unfold State.revertOrphaned
  split_ifs
  · exact h
  · exact h.revert (orphaned_fair_iff.mpr hagree)

theorem Sound.write (h : Sound s) (e : Env ι) (changed : List ι) (optimistic : Bool) :
    Sound (s.write site e w changed optimistic) := by
  unfold State.write
  dsimp only
  split
  · exact h
  · generalize (optimistic && decide ((changed.foldl (fun b o => Boats.soil e.bytes o b)
      (s.workers w).boats).dirtyBytes ≤ site.maxUnshipped)) = early
    generalize htxn : (⟨changed, some ⟨s.count, early⟩⟩ : AppliedTxn ι Rider) = txn
    have hpending := Boats.applied_pending (b := (s.workers w).boats) e.bytes txn
    have hinflight := Boats.applied_inflight (b := (s.workers w).boats) e.bytes txn
    subst htxn
    refine Sound.of_kept (w := w) ⟨fun t ht => ?_, h.fair⟩ h.idle
      (fun v hv => setWorker_ne _ hv) fun hself => ?_
    · by_cases hnew : t = s.count ∧ early = true
      · refine .inl ⟨w, mem_unshipped.mpr
          (.inr ⟨⟨changed, some ⟨s.count, early⟩⟩, ?_, ⟨s.count, early⟩, rfl, hnew.1.symm⟩)⟩
        rw [setWorker_self]
        dsimp only
        rw [hpending]
        exact List.mem_append_right _ List.mem_cons_self
      · have hold : t ∈ s.acked := by
          cases early with
          | false => exact ht
          | true => exact (List.mem_cons.mp ht).resolve_left fun heq => hnew ⟨heq, rfl⟩
        refine (h.accounted t hold).step (w := w) (fun v hv => setWorker_ne _ hv)
          (fun hmem => .inl ⟨w, ?_⟩) (fun _ h => h) (fun _ h => h)
        rw [setWorker_self]
        rcases mem_unshipped.mp hmem with haboard | ⟨txn, htxn, hr⟩
        · exact mem_unshipped.mpr (.inl haboard)
        · refine mem_unshipped.mpr (.inr ⟨txn, ?_, hr⟩)
          dsimp only
          rw [hpending]
          exact List.mem_append_left _ htxn
    · rw [setWorker_self] at hself ⊢
      exact h.idle w (hinflight.symm.trans hself)

theorem relinquish_frame (claim : Claim) (object : ι) :
    (s.relinquish claim w object).acked = s.acked ∧
    (s.relinquish claim w object).durable = s.durable ∧
    (s.relinquish claim w object).losses = s.losses ∧
    (∀ v, v ≠ w → (s.relinquish claim w object).workers v = s.workers v) ∧
    ((s.relinquish claim w object).workers w).aboard = (s.workers w).aboard ∧
    ((s.relinquish claim w object).workers w).boats.pending = (s.workers w).boats.pending ∧
    ((s.relinquish claim w object).workers w).boats.inflight = (s.workers w).boats.inflight := by
  have hsame : ∀ s' : State ι, s'.acked = s.acked → s'.durable = s.durable →
      s'.losses = s.losses →
      s'.workers = Function.update s.workers w
        { s.workers w with boats := (s.workers w).boats.clean object } →
      s'.acked = s.acked ∧ s'.durable = s.durable ∧ s'.losses = s.losses ∧
        (∀ v, v ≠ w → s'.workers v = s.workers v) ∧
        (s'.workers w).aboard = (s.workers w).aboard ∧
        (s'.workers w).boats.pending = (s.workers w).boats.pending ∧
        (s'.workers w).boats.inflight = (s.workers w).boats.inflight := by
    intro s' hacked hdurable hlosses hworkers
    rw [hworkers]
    refine ⟨hacked, hdurable, hlosses, fun v hv => Function.update_of_ne hv .., ?_⟩
    rw [Function.update_self]
    exact ⟨rfl, Boats.clean_pending .., Boats.clean_inflight ..⟩
  unfold State.relinquish
  cases claim with
  | unclaimed => exact ⟨rfl, rfl, rfl, fun _ _ => rfl, rfl, rfl, rfl⟩
  | owned v g =>
    dsimp only
    split
    · exact hsame _ rfl rfl rfl rfl
    · exact ⟨rfl, rfl, rfl, fun _ _ => rfl, rfl, rfl, rfl⟩
  | transit v g =>
    dsimp only
    split
    · exact hsame _ rfl rfl rfl rfl
    · exact ⟨rfl, rfl, rfl, fun _ _ => rfl, rfl, rfl, rfl⟩

omit [DecidableEq ι] in
theorem Sound.crash (h : Sound s) (hints : ι → Option Nat) : Sound (s.crash w hints) := by
  refine Sound.of_kept (w := w) ⟨fun t ht => ?_, fun l hl => ?_⟩ h.idle
    (fun v hv => setWorker_ne _ hv) fun _ => ?_
  · refine (h.accounted t ht).step (w := w) (fun v hv => setWorker_ne _ hv) (fun hmem => ?_)
      (fun _ h => h) (fun l hl => List.mem_cons_of_mem _ hl)
    exact .inr (.inr ⟨_, List.mem_cons_self, mem_lost.mpr (mem_unshipped.mp hmem)⟩)
  · rcases List.mem_cons.mp hl with rfl | hl
    · exact fair_of_cause (.inl rfl)
    · exact h.fair l hl
  · rw [State.crash, setWorker_self]

theorem Sound.shipDone (h : Sound s) (e : Env ι) (trip : Trip ι) :
    Sound (s.shipDone e w trip) := by
  unfold State.shipDone
  dsimp only
  cases hinflight : (s.workers w).boats.inflight with
  | none => exact h
  | some objects =>
    cases trip with
    | landed unpromoted =>
      dsimp only
      rw [setWorker_self]
      have hrepaired : ∀ b : Boats ι Rider, b.inflight = none →
          b.pending ⊆ (if unpromoted.isEmpty then b
            else b.applied e.bytes ⟨unpromoted, none⟩).pending := by
        intro b _ txn htxn
        split
        · exact htxn
        · rw [Boats.applied_pending]
          exact List.mem_append_left _ htxn
      refine Sound.of_kept (w := w) ⟨fun t ht => ?_, h.fair⟩ h.idle
        (fun v hv => (setWorker_ne _ hv).trans (setWorker_ne _ hv)) fun _ => ?_
      · refine (h.accounted t ht).step (w := w)
          (fun v hv => (setWorker_ne _ hv).trans (setWorker_ne _ hv)) (fun hmem => ?_)
          (fun _ h => List.mem_append_right _ h) (fun _ h => h)
        rcases mem_unshipped.mp hmem with ⟨r, hr, ht⟩ | ⟨txn, htxn, hr⟩
        · exact .inr (.inl (List.mem_append_left _ (List.mem_map.mpr ⟨r, hr, ht⟩)))
        · refine .inl ⟨w, mem_unshipped.mpr (.inr ⟨txn, ?_, hr⟩)⟩
          rw [setWorker_self]
          exact hrepaired _ rfl htxn
      · rw [setWorker_self]
    | sank rebased =>
      -- what was aboard goes down with the boat, the rest stays where it was
      have hsunk : ∀ s' : State ι, s'.acked = s.acked → s'.durable = s.durable →
          s'.losses = s.losses → (∀ v, v ≠ w → s'.workers v = s.workers v) →
          (s'.workers w).aboard = [] →
          (s'.workers w).boats.pending = (s.workers w).boats.pending →
          Sound (s'.revert .failedBoat w objects (s.workers w).aboard) := by
        intro s' hacked hdurable hlosses hothers haboard hpending
        refine Sound.of_kept (w := w) (kept_revert (fun t ht => ?_)
          (fun l hl => h.fair l (hlosses ▸ hl)) (fair_of_cause (.inr rfl))) h.idle
          (fun v hv => (setWorker_ne _ hv).trans (hothers v hv)) fun _ => ?_
        · by_cases hdown : ∃ r ∈ (s.workers w).aboard, r.txn = t
          · exact .inr hdown
          · refine .inl ((h.accounted t (hacked ▸ ht)).step hothers (fun hmem => ?_)
              (fun _ h => hdurable ▸ h) (fun _ h => hlosses ▸ h))
            have hrest := (mem_unshipped.mp hmem).resolve_left hdown
            exact .inl ⟨w, mem_unshipped.mpr (.inr (hpending ▸ hrest))⟩
        · rw [State.revert, setWorker_self]
          exact haboard
      cases rebased with
      | none =>
        apply hsunk
        · rfl
        · rfl
        · rfl
        · exact fun v hv => setWorker_ne _ hv
        · rw [setWorker_self]
        · rw [setWorker_self]
      | some object =>
        obtain ⟨hacked, hdurable, hlosses, hothers, haboard, hpending, -⟩ :=
          relinquish_frame (w := w) (s := s.setWorker w
            ⟨{ (s.workers w).boats with inflight := none }, []⟩) e.claim object
        rw [setWorker_self] at haboard hpending
        exact hsunk _ hacked hdurable hlosses
          (fun v hv => (hothers v hv).trans (setWorker_ne _ hv)) haboard hpending

/-- What a step does before it launches. -/
theorem Sound.handle (h : Sound s) {m : Move ι × Env ι} (hheeded : Heeded site s m) :
    Sound (s.handle site m.2 m.1).1 := by
  obtain ⟨m, e⟩ := m
  cases m with
  | own m =>
    change Sound (s.own site e m)
    unfold State.own
    split
    · exact h
    · exact h.same rfl rfl rfl rfl
  | reconcile w object =>
    change Sound (s.reconcile site w object)
    unfold State.reconcile
    split_ifs
    · exact h.same rfl rfl rfl rfl
    · exact h
    · exact h.same rfl rfl rfl rfl
    · exact h
  | lookUp w object =>
    change Sound (s.lookUp site w object)
    unfold State.lookUp
    split
    · exact h.same rfl rfl rfl rfl
    · exact h
  | lookOn i =>
    change Sound (s.lookOn i)
    unfold State.lookOn
    split
    · exact h
    · split_ifs
      · dsimp only
        split
        · split_ifs
          · exact h.same rfl rfl rfl rfl
          · exact h.same rfl rfl rfl rfl
        · split_ifs
          · exact h.same rfl rfl rfl rfl
          · exact h.same rfl rfl rfl rfl
        · exact h.same rfl rfl rfl rfl
      · exact h.same rfl rfl rfl rfl
  | write w changed optimistic => exact h.write e changed optimistic
  | commitFailed w committed =>
    apply h.revert
    refine ⟨nofun, fun hacked => absurd (acked_nil_iff.mpr ?_) hacked⟩
    exact hheeded.2 w committed rfl
  | shipDone w trip => exact h.shipDone e trip
  | launch w => exact h
  | crash w hints => exact h.crash hints

theorem sound_step (s : State ι) (m : Move ι × Env ι) (h : Sound s) (hheeded : Heeded site s m) :
    Sound (s.step site m) := by
  have hhandled := h.handle hheeded
  have hagree := hheeded.1
  unfold State.step
  generalize s.handle site m.2 m.1 = result at hhandled hagree ⊢
  obtain ⟨s', launch⟩ := result
  cases launch with
  | none => exact hhandled
  | some w => exact hhandled.maybeLaunch m.2.readable (hagree w rfl)

theorem launch_losses (readable : Bool) {l : Loss ι} (hl : l ∈ s.losses) :
    l ∈ (s.launch site readable w).losses := by
  unfold State.launch
  dsimp only
  split_ifs
  · exact hl
  · exact hl
  · exact List.mem_cons_of_mem _ hl

/-- A launch on hints that disagree loses a write of an owned object. -/
theorem not_kept_maybeLaunch (readable : Bool) (hbad : ¬ HintsAgree site s w) :
    ¬ Kept (s.maybeLaunch site readable w) := by
  intro h
  apply hbad
  have hsome : (s.orphaned site w).isEmpty = false := by
    by_contra hnone
    rw [Bool.not_eq_false, List.isEmpty_iff] at hnone
    apply hbad
    intro d hd txn _ o _ _ _
    by_contra howner
    have hmem : d ∈ s.orphaned site w := List.mem_filter.mpr ⟨hd, decide_eq_true howner⟩
    rw [hnone] at hmem
    cases hmem
  apply orphaned_fair_iff.mp
  apply h.fair
  apply launch_losses
  rw [State.revertOrphaned, hsome]
  exact List.mem_cons_self

theorem not_kept_step {m : Move ι × Env ι} (hbad : ¬ Heeded site s m) :
    ¬ Kept (s.step site m) := by
  intro h
  apply hbad
  refine ⟨fun w hw => ?_, fun w committed hm => ?_⟩
  · by_contra hagree
    unfold State.step at h
    generalize s.handle site m.2 m.1 = result at h hw hagree
    obtain ⟨s', launch⟩ := result
    cases hw
    exact not_kept_maybeLaunch m.2.readable hagree h
  · obtain ⟨m, e⟩ := m
    cases hm
    have hfair := h.fair (s.loss .failedCommit w ((s.workers w).boats.killed committed) [])
      List.mem_cons_self
    apply acked_nil_iff.mp
    by_contra hacked
    rcases hfair.2 hacked with hcause | hcause <;> cases hcause

/-- Nothing was applied yet; who owns what and how it is routed is as boot found it. -/
def start (ownership : Ownership.State ι) (hints : ι → Option Nat) : State ι :=
  { ownership, exceptions := hints }

omit [DecidableEq ι] in
theorem sound_start (ownership : Ownership.State ι) (hints : ι → Option Nat) :
    Sound (start ownership hints) where
  accounted _ ht := by cases ht
  fair _ hl := by cases hl
  idle _ _ := rfl

/-- In every run, no write of an owned object is reverted as orphaned and acknowledged ones are lost
only by crashes and with boats, exactly when every launch finds hints that agree and no failed
commit reverts one. -/
theorem hints_keep_acks_iff (site : Site ι) (ownership : Ownership.State ι)
    (hints : ι → Option Nat) (moves : List (Move ι × Env ι)) :
    Runs.Throughout (State.step site) Kept (start ownership hints) moves ↔
      Runs.Guarded (State.step site) (Heeded site) (start ownership hints) moves :=
  Runs.throughout_iff_guarded sound_step (fun _ h => h.toKept)
    (fun _ _ _ hbad => not_kept_step hbad) (sound_start ownership hints)

/-- Workers of one node; worker 1 is the default of every object. -/
def harbor : Site Nat where
  defaultWorker _ := 1
  hysteresis := 0
  maxBoatBytes := 100
  maxUnshipped := 100

/-- Worker 1 looks up who claims object 7 while it is on its way to worker 2, and heals routing when
worker 3 has long got it and has an acknowledged write waiting for the next boat. -/
def lateLookup : List (Move Nat) :=
  [.own (.take 1 7 2), .own (.read 1), .own (.grant 1 7), .own (.reply 1 true),
    .reconcile 2 7, .lookUp 1 7, .lookOn 0, .own (.taken 0),
    .own (.take 2 7 3), .own (.grant 2 7), .own (.reply 2 true), .own (.taken 0),
    .write 3 [7] true, .launch 3, .write 3 [7] true, .lookOn 0, .shipDone 3 (.landed [])]

theorem owned_write_orphaned :
    ¬ Runs.Throughout (State.step harbor) Kept (start {} fun _ => none)
      (lateLookup.map fun m => (m, {})) := by
  intro h
  have hlosses : (Runs.run (State.step harbor) (start {} fun _ => none)
      (lateLookup.map fun m => (m, {}))).losses = [⟨.orphaned, 3, [1], [7], [1]⟩] := by
    decide
  have hfair : (⟨.orphaned, 3, [1], [7], [1]⟩ : Loss Nat).Fair := by
    apply h.last.fair
    rw [hlosses]
    exact List.mem_cons_self
  cases hfair.1 rfl

end Fafo.Hints
