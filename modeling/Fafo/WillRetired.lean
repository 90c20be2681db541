import Fafo.Wills

/-! A will that a client was told is gone: that no later sweep fires it. -/
namespace Fafo.Wills

open Submission

/-- The client armed its will after it retired one. -/
def After (gone arming : Frame) : Prop :=
  arming.client = gone.client → gone.number < arming.number

/-- No sweep that starts after a client was told that its will is gone fires one that it armed
before. -/
def Retired (s : State) : Prop :=
  ∀ frame told, (frame, told) ∈ s.retired →
    ∀ session arming start, (session, arming, start) ∈ s.fires → told ≤ start → After frame arming

/-- What its client has armed so far is under the session id that the delete names. -/
def Named (s : State) (session : String) (frame : Frame) : Prop :=
  ∀ session' payload arming, carried s.table session' = some (payload, arming) →
    session' = session ∨ After frame arming

/-- The delete of a disarm, and of a close that has fired, does not fail and finds its client's row
under the session id that it names; and no arm takes effect once that of a later frame has. -/
def Final (s : State) : Move → Prop
  | .apply k => ∀ f, s.flight[k]? = some f →
    match f.stmt with
    | .arm _ _ _ frame => ∀ gone ∈ s.wiped, After gone frame
    | .delete session (.disarm frame) | .delete session (.close frame _ true) =>
      Named s session frame
    | _ => True
  | .fail i =>
    match (s.tasks i).job with
    | .disarming _ | .retiring _ true => False
    | _ => True
  | _ => True

/-- What a sweep has read is later than what was gone when it started. -/
def Newer (s : State) (start : Nat) (x : Listed) : Prop :=
  ∀ frame told, (frame, told) ∈ s.retired → told ≤ start → After frame x.arming

/-- What is known of a transaction and its result. -/
def Known (s : State) : Stmt → Option Result → Prop
  | .delete _ (.disarm frame), some _ | .delete _ (.close frame _ true), some _ => frame ∈ s.wiped
  | .list _ start, result =>
    start ≤ s.clock ∧ ∀ rows, result = some (.rows rows) → ∀ x ∈ rows, Newer s start x
  | _, _ => True

/-- A sweep's rows. -/
def Held (s : State) : Job → Prop
  | .listing start _ _ => start ≤ s.clock
  | .claiming start _ _ row todo => start ≤ s.clock ∧ ∀ x ∈ row :: todo, Newer s start x
  | .firing start _ _ _ todo | .consuming start _ _ todo =>
    start ≤ s.clock ∧ ∀ x ∈ todo, Newer s start x
  | _ => True

structure Gone (s : State) : Prop where
  tracks : Tracks (Known s) (Held s) s
  wiped : ∀ frame ∈ s.wiped,
    ∀ c payload arming, carried s.table c = some (payload, arming) → After frame arming
  retired : ∀ frame told, (frame, told) ∈ s.retired → frame ∈ s.wiped
  fires : ∀ c arming start, (c, arming, start) ∈ s.fires → start ≤ s.clock ∧
    ∀ frame told, (frame, told) ∈ s.retired → told ≤ start → After frame arming

theorem Gone.retiredNever {s : State} (h : Gone s) : Retired s :=
  fun frame told hmem c arming start hfire hle =>
    (h.fires c arming start hfire).2 frame told hmem hle

variable {s s' : State}

/-- The record only grows, by what is gone from now on. -/
structure Grows (s s' : State) : Prop where
  clock : s.clock ≤ s'.clock
  wiped : s.wiped ⊆ s'.wiped
  retired : ∀ frame told, (frame, told) ∈ s'.retired →
    (frame, told) ∈ s.retired ∨ s.clock < told

theorem Grows.newer (h : Grows s s') {start : Nat} (hstart : start ≤ s.clock) {x : Listed}
    (hx : Newer s start x) : Newer s' start x := by
  intro frame told hmem hle
  rcases h.retired _ _ hmem with hmem | hlt
  · exact hx frame told hmem hle
  · omega

theorem Grows.known (h : Grows s s') {stmt : Stmt} {result : Option Result}
    (hk : Known s stmt result) : Known s' stmt result := by
  cases stmt with
  | delete c deleter =>
    cases result with
    | none =>
      cases deleter with
      | close frame arming fired => cases fired <;> trivial
      | _ => trivial
    | some r =>
      cases deleter with
      | disarm => exact h.wiped hk
      | close frame arming fired =>
        cases fired with
        | true => exact h.wiped hk
        | false => trivial
      | sweep => trivial
  | list now start =>
    exact ⟨hk.1.trans h.clock, fun rows hrows x hx => h.newer hk.1 (hk.2 rows hrows x hx)⟩
  | _ => trivial

theorem Grows.held (h : Grows s s') {job : Job} (hj : Held s job) : Held s' job := by
  cases job with
  | listing => exact hj.trans h.clock
  | claiming => exact ⟨hj.1.trans h.clock, fun x hx => h.newer hj.1 (hj.2 x hx)⟩
  | firing => exact ⟨hj.1.trans h.clock, fun x hx => h.newer hj.1 (hj.2 x hx)⟩
  | consuming => exact ⟨hj.1.trans h.clock, fun x hx => h.newer hj.1 (hj.2 x hx)⟩
  | _ => trivial

theorem Grows.tracks (h : Grows s s') {t : State} (ht : Tracks (Known s) (Held s) t) :
    Tracks (Known s') (Held s') t := ht.mono (fun _ _ => h.known) fun _ => h.held

theorem grows_tick (s : State) : Grows s s.tick :=
  ⟨Nat.le_succ _, List.Subset.refl _, fun _ _ => .inl⟩

theorem Gone.setWill (h : Gone s) (c : Nat) (will : Option (Will × Frame)) :
    Gone (s.setWill c will) := ⟨h.tracks.congr rfl rfl rfl, h.wiped, h.retired, h.fires⟩

theorem Gone.setArmed (h : Gone s) (n : Nat) (armed : List String) : Gone (s.setArmed n armed) :=
  ⟨h.tracks.congr rfl rfl rfl, h.wiped, h.retired, h.fires⟩

theorem Gone.tick (h : Gone s) : Gone s.tick :=
  ⟨((grows_tick s).tracks h.tracks).congr rfl rfl rfl, h.wiped, h.retired,
    fun c arming start hfire => (h.fires c arming start hfire).imp_left Nat.le_succ_of_le⟩

theorem Gone.issue (h : Gone s) {i n : Nat} {job : Job} {stmt : Stmt} (hknown : Known s stmt none)
    (hheld : Held s job) (hawaits : job.Awaits stmt) : Gone (s.issue i n job stmt) :=
  ⟨h.tracks.issue hknown hheld hawaits, h.wiped, h.retired, h.fires⟩

theorem Gone.endTask (h : Gone s) (i : Nat) : Gone (s.endTask i) :=
  ⟨h.tracks.endTask trivial i, h.wiped, h.retired, h.fires⟩

/-- A client is told that its will is gone, after the delete. -/
theorem Gone.retire (h : Gone s) {frame : Frame} (hwiped : frame ∈ s.wiped) (i : Nat) :
    Gone { s.tick.endTask i with retired := (frame, s.clock + 1) :: s.retired } := by
  have hgrows : Grows s { s.tick.endTask i with
      retired := (frame, s.clock + 1) :: s.retired } := by
    refine ⟨Nat.le_succ _, List.Subset.refl _, fun frame' told hmem => ?_⟩
    rcases List.mem_cons.mp hmem with heq | hmem
    · cases heq
      exact .inr (Nat.lt_succ_self _)
    · exact .inl hmem
  refine ⟨(hgrows.tracks (h.tracks.endTask trivial i)).congr rfl rfl rfl, h.wiped,
    fun frame' told hmem => ?_, fun c arming start hfire => ?_⟩
  · rcases List.mem_cons.mp hmem with heq | hmem
    · cases heq
      exact hwiped
    · exact h.retired frame' told hmem
  · obtain ⟨hstart, hnewer⟩ := h.fires c arming start hfire
    refine ⟨Nat.le_succ_of_le hstart, fun frame' told hmem hle => ?_⟩
    rcases hgrows.retired _ _ hmem with hmem | hlt
    · exact hnewer frame' told hmem hle
    · omega

theorem gone_frame (h : Gone s) (i c : Nat) (w : Will) (now : Nat) (allowed : Bool) :
    Gone (s.frame i c w now allowed) := by
  obtain heq | ⟨armed, heq⟩ | ⟨will, deadline, heq⟩ | ⟨will, heq⟩ := frame_cases s i c w now allowed
  all_goals rw [heq]
  · exact h.tick
  · exact ((h.tick.setWill c none).setArmed _ armed).issue trivial trivial ⟨_, rfl⟩
  · exact h.tick.issue trivial trivial ⟨_, rfl⟩
  · exact h.tick.setWill c _

theorem gone_close (h : Gone s) (i c : Nat) : Gone (s.close i c) := by
  unfold State.close
  cases (s.sessions c).will with
  | none => exact h
  | some will => exact (h.tick.setWill c none).issue trivial trivial ⟨_, rfl⟩

theorem gone_nextRow (h : Gone s) (i n now ttl : Nat) {start : Nat} (hstart : start ≤ s.clock)
    {todo : List Listed} (htodo : ∀ x ∈ todo, Newer s start x) :
    Gone (s.nextRow i n start now ttl todo) := by
  cases todo with
  | nil => exact h.endTask i
  | cons row todo => exact h.issue trivial ⟨hstart, htodo⟩ trivial

theorem gone_fireRow (h : Gone s) (i n now ttl : Nat) {start : Nat} (hstart : start ≤ s.clock)
    {row : Listed} {todo : List Listed} (hrows : ∀ x ∈ row :: todo, Newer s start x) :
    Gone (s.fireRow i n start now ttl row todo) := by
  have htodo : ∀ x ∈ todo, Newer s start x := fun x hx => hrows x (.tail _ hx)
  unfold State.fireRow
  cases hpayload : row.payload with
  | garbled => exact h.issue trivial ⟨hstart, htodo⟩ trivial
  | will w =>
    have hs : Gone (s.issue i n (.firing start now ttl row todo) (.fire w row.arming)) :=
      h.issue trivial ⟨hstart, htodo⟩ ⟨w, hpayload, rfl⟩
    refine ⟨hs.tracks.congr rfl rfl rfl, hs.wiped, hs.retired, fun c arming start' hfire => ?_⟩
    rcases List.mem_cons.mp hfire with heq | hfire
    · cases heq
      exact ⟨hstart, hrows row List.mem_cons_self⟩
    · exact hs.fires c arming start' hfire

/-- A task goes on: with the result of the transaction it waits for, or with an error that is not
that of a disarm's or a close's delete. -/
theorem gone_resume (h : Gone s) (i : Nat) {result : Option Result}
    (hresult : ∀ r, result = some r →
      ∃ stmt, (s.tasks i).job.Awaits stmt ∧ Known s stmt (some r))
    (hfinal : result = none → Final s (.fail i)) : Gone (s.resume i result) := by
  have hjob := h.tracks.jobs i
  unfold State.resume
  dsimp only
  cases htask : (s.tasks i).job with
  | idle => exact h
  | ended => exact h
  | arming session frame w =>
    cases result with
    | none => exact h.endTask i
    | some r =>
      have hs := ((h.setArmed (s.tasks i).node
        ((s.nodes (s.tasks i).node).armed.insert session)).setWill frame.client
          (some (w, frame))).endTask i
      exact ⟨hs.tracks.congr rfl rfl rfl, hs.wiped, hs.retired, hs.fires⟩
  | disarming frame =>
    cases result with
    | none =>
      have hfail := hfinal rfl
      simp [Final, htask] at hfail
    | some r =>
      obtain ⟨stmt, hawaits, hknown⟩ := hresult r rfl
      rw [htask] at hawaits
      obtain ⟨session, rfl⟩ := hawaits
      exact h.retire hknown i
  | closing frame read =>
    refine (h.setArmed _ _).issue ?_ trivial ⟨_, read, rfl⟩
    cases result <;> trivial
  | retiring frame fired =>
    dsimp only
    split_ifs with hfired
    · subst hfired
      cases result with
      | none =>
        have hfail := hfinal rfl
        simp [Final, htask] at hfail
      | some r =>
        obtain ⟨stmt, hawaits, hknown⟩ := hresult r rfl
        rw [htask] at hawaits
        obtain ⟨session, read, rfl⟩ := hawaits
        exact h.retire hknown i
    · exact h.endTask i
  | listing start now ttl =>
    rw [htask] at hjob
    cases result with
    | none => exact h.endTask i
    | some r =>
      cases r with
      | affected => exact h.endTask i
      | rows rows =>
        obtain ⟨stmt, hawaits, hknown⟩ := hresult _ rfl
        rw [htask] at hawaits
        obtain rfl := hawaits
        exact gone_nextRow h i _ now ttl hjob (hknown.2 rows rfl)
  | claiming start now ttl row todo =>
    rw [htask] at hjob
    dsimp only
    split_ifs
    · exact gone_nextRow h i _ now ttl hjob.1 fun x hx => hjob.2 x (.tail _ hx)
    · exact gone_fireRow h i _ now ttl hjob.1 hjob.2
  | firing start now ttl row todo =>
    rw [htask] at hjob
    cases result with
    | none => exact gone_nextRow h i _ now ttl hjob.1 hjob.2
    | some r => exact h.issue trivial hjob trivial
  | consuming start now ttl todo =>
    rw [htask] at hjob
    exact gone_nextRow h i _ now ttl hjob.1 hjob.2

/-- The delete of a disarm, or of a close that has fired. -/
inductive Retires (session : String) (frame : Frame) : Stmt → Prop
  | disarm : Retires session frame (.delete session (.disarm frame))
  | close (read : Frame) : Retires session frame (.delete session (.close frame read true))

theorem record_wiped (s : State) (stmt : Stmt) :
    s.wiped ⊆ (s.record stmt).wiped ∧ ∀ frame ∈ (s.record stmt).wiped,
      frame ∈ s.wiped ∨ ∃ session, Retires session frame stmt := by
  unfold State.record
  dsimp only
  split
  · split <;> exact ⟨List.Subset.refl _, fun _ => .inl⟩
  · next c frame =>
    have hnew : ∀ frame' ∈ frame :: s.wiped,
        frame' ∈ s.wiped ∨ ∃ session, Retires session frame' (.delete c (.disarm frame)) := by
      intro frame' hmem
      rcases List.mem_cons.mp hmem with rfl | hmem
      · exact .inr ⟨c, .disarm⟩
      · exact .inl hmem
    split <;> exact ⟨List.subset_cons_self _ _, hnew⟩
  · next c frame read =>
    refine ⟨List.subset_cons_self _ _, fun frame' hmem => ?_⟩
    rcases List.mem_cons.mp hmem with rfl | hmem
    · exact .inr ⟨c, .close read⟩
    · exact .inl hmem
  · exact ⟨List.Subset.refl _, fun _ => .inl⟩
  · exact ⟨List.Subset.refl _, fun _ => .inl⟩

theorem Final.named {k : Nat} {f : Flight} (h : Final s (.apply k)) (hf : s.flight[k]? = some f)
    {session : String} {frame : Frame} (hretires : Retires session frame f.stmt) :
    Named s session frame := by
  have hnamed := h f hf
  generalize f.stmt = stmt at hnamed hretires
  cases hretires with
  | disarm => exact hnamed
  | close read => exact hnamed

/-- A transaction takes effect. -/
theorem gone_apply (h : Gone s) {k : Nat} (hfinal : Final s (.apply k)) : Gone (s.apply k) := by
  cases hf : s.flight[k]? with
  | none => simpa [State.apply, hf] using h
  | some f =>
    obtain ⟨-, -, hclock, -, hretired, hfires⟩ := record_frame s f.stmt
    obtain ⟨hsub, hnew⟩ := record_wiped s f.stmt
    have hgrows : Grows s (s.apply k) := by
      rw [apply_eq hf]
      exact ⟨hclock.ge, hsub, fun _ _ hmem => .inl (hretired ▸ hmem)⟩
    have hknown := hgrows.known (h.tracks.flights f (List.mem_of_getElem? hf))
    refine ⟨(hgrows.tracks h.tracks).apply hf ?_, fun frame hmem c payload arming hrow => ?_,
      fun frame told hmem => ?_, fun c arming start hfire => ?_⟩
    · -- what the result says
      cases hstmt : f.stmt with
      | delete c deleter =>
        have hwiped : ∀ frame, frame ∈ (s.record (.delete c deleter)).wiped →
            frame ∈ (s.apply k).wiped := fun frame hmem => by
          rw [apply_eq hf, hstmt]
          exact hmem
        cases deleter with
        | disarm frame =>
          refine hwiped frame ?_
          unfold State.record
          dsimp only
          split <;> exact List.mem_cons_self
        | close frame read fired =>
          cases fired with
          | true => exact hwiped frame List.mem_cons_self
          | false => trivial
        | sweep => trivial
      | list now start =>
        rw [hstmt] at hknown
        refine ⟨hknown.1, fun rows hrows x hx => hgrows.newer ?_ fun frame told hmem _ => ?_⟩
        · have hstart := (hstmt ▸ h.tracks.flights f (List.mem_of_getElem? hf))
          exact hstart.1
        · -- a row that is listed is not one that is gone
          obtain rfl := Result.rows.inj (Option.some.inj hrows)
          exact h.wiped _ (h.retired _ _ hmem) _ _ _ (carried_of_lapsed hx)
      | _ => trivial
    · rw [apply_eq hf] at hmem hrow
      change carried (exec s.table f.stmt).1 c = _ at hrow
      rw [carried_exec] at hrow
      have hfinal' := hfinal f hf
      rcases hnew frame hmem with hmem | ⟨session, hretires⟩
      · cases hstmt : f.stmt with
        | arm session deadline w number =>
          rw [hstmt] at hrow hfinal'
          dsimp only at hrow hfinal'
          split_ifs at hrow with hc
          · cases hrow
            exact hfinal' frame hmem
          · exact h.wiped frame hmem c payload arming hrow
        | delete session deleter =>
          rw [hstmt] at hrow
          dsimp only at hrow
          split_ifs at hrow
          exact h.wiped frame hmem c payload arming hrow
        | _ =>
          rw [hstmt] at hrow
          exact h.wiped frame hmem c payload arming hrow
      · -- what is left of its client is later
        have hnamed := hfinal.named hf hretires
        have hdelete :
            (if c = session then none else carried s.table c) = some (payload, arming) := by
          generalize f.stmt = stmt at hrow hretires
          cases hretires <;> exact hrow
        split_ifs at hdelete with hc
        exact (hnamed c payload arming hdelete).resolve_left hc
    · rw [apply_eq hf] at hmem ⊢
      exact hsub (h.retired frame told (hretired ▸ hmem))
    · rw [apply_eq hf] at hfire ⊢
      obtain ⟨hstart, hnewer⟩ := h.fires c arming start (hfires ▸ hfire)
      exact ⟨hclock ▸ hstart, fun frame told hmem => hnewer frame told (hretired ▸ hmem)⟩

theorem gone_step (h : Gone s) {m : Move} (hfinal : Final s m) : Gone (s.step m) := by
  cases m with
  | frame i c w now allowed =>
    simp only [State.step]
    split_ifs
    · exact gone_frame h i c w now allowed
    · exact h
  | close i c =>
    simp only [State.step]
    split_ifs
    · exact gone_close h i c
    · exact h
  | sweep i n now ttl =>
    simp only [State.step]
    split_ifs
    · refine h.tick.issue ⟨le_rfl, nofun⟩ ?_ rfl
      exact le_rfl
    · exact h
  | refresh n deadline =>
    simp only [State.step]
    split_ifs
    · unfold State.refresh
      split_ifs
      · exact h
      · exact ⟨h.tracks.push trivial, h.wiped, h.retired, h.fires⟩
    · exact h
  | apply k => exact gone_apply h hfinal
  | answer i k =>
    simp only [State.step, State.answered]
    cases hf : s.flight[k]? with
    | none => exact h
    | some f =>
      dsimp only
      split_ifs with hid
      · refine gone_resume h i (fun r hr => ⟨f.stmt, ?_, ?_⟩) fun hnone => ?_
        · exact h.tracks.awaited i f (List.mem_of_getElem? hf) hid.1
        · exact hr ▸ h.tracks.flights f (List.mem_of_getElem? hf)
        · rw [hnone] at hid
          cases hid.2
      · exact h
  | fail i =>
    have hs : Gone (s.resume i none) := gone_resume h i nofun fun _ => hfinal
    exact hs
  | name n tag =>
    simp only [State.step]
    split_ifs
    · exact ⟨h.tracks.congr rfl rfl rfl, h.wiped, h.retired, h.fires⟩
    · exact h
  | crash n => exact ⟨(h.tracks.crash trivial n).congr rfl rfl rfl, h.wiped, h.retired, h.fires⟩

theorem gone_initial (table : Table) (nodes : Nat → Node) (homes conns : Nat → Nat) :
    Gone (start table nodes homes conns) :=
  ⟨tracks_initial table nodes homes conns trivial, nofun, nofun, nofun⟩

/-- In every run in which the deletes of disarms and closes succeed and name the session ids their
clients armed under, and no arm takes effect after that of a later frame, no sweep fires a will that
was gone when it started. -/
theorem retired_will_never_fires (table : Table) (nodes : Nat → Node) (homes conns : Nat → Nat)
    (moves : List Move)
    (hfinal : Runs.Guarded State.step Final (start table nodes homes conns) moves) :
    Runs.Throughout State.step Retired (start table nodes homes conns) moves :=
  Runs.Guarded.throughout (I := Gone) (fun _ _ h hf => gone_step h hf) (fun _ h => h.retiredNever)
    (gone_initial table nodes homes conns) hfinal

/-- Release my lock. -/
def unlock : Will := { ops := [⟨"lock", "DELETE FROM holder"⟩] }

/-- The will is armed and disarmed; a later sweep on another node finds no row. -/
def disarmed : List Move :=
  [.frame 0 7 unlock 0 true, .apply 0, .answer 0 0, .frame 1 7 {} 1000 true, .apply 0, .answer 1 0,
    .sweep 2 1 60001 60000, .apply 0, .answer 2 0]

theorem retired_will_never_fires_disarmed :
    Runs.Throughout State.step Retired (start ∅ named (fun _ => 0) id) disarmed := by
  refine retired_will_never_fires ∅ named (fun _ => 0) id disarmed
    ⟨trivial, ?_, trivial, trivial, ?_, trivial, trivial, ?_, trivial, trivial⟩
  · rintro f ⟨⟩ gone hgone
    cases hgone
  · rintro f ⟨⟩ session payload arming hrow
    left
    by_contra hsession
    change session ≠ (start ∅ named (fun _ => 0) id).session 7 at hsession
    change carried ((∅ : Table).insert _ _) session = _ at hrow
    rw [carried, AList.lookup_insert_ne hsession] at hrow
    cases hrow
  · rintro f ⟨⟩
    trivial

/-- The disarm's delete fails; the client is told "disarmed", and the sweep fires the will. -/
def failedDisarm : List Move :=
  [.frame 0 7 unlock 0 true, .apply 0, .answer 0 0, .frame 1 7 {} 1000 true, .fail 1,
    .sweep 2 1 60001 60000, .apply 0, .answer 2 0, .apply 0, .answer 2 0]

theorem disarmed_will_fires :
    ¬ Runs.Throughout State.step Retired (start ∅ named (fun _ => 0) id) failedDisarm := by
  intro h
  have hlt := h.last ⟨7, 2⟩ 3 (by decide) "27c03b26b0-7" ⟨7, 1⟩ 4 (by decide) (by decide) rfl
  exact absurd hlt (by decide)

end Fafo.Wills
