import Fafo.Cancels
import Fafo.Hearing

/-! A cancelled poll is gone for good when it was parked with the worker that handled its
cancellation, and only then. -/
namespace Fafo.Polls

variable {ι Img Sql Row : Type} [LinearOrder ι] {site : Site ι Img Sql Row} {e : Env ι}
variable {s s' s'' : State ι Img Sql Row} {t : Txn ι Sql}

/-- No poll is parked anew. -/
def Thins (s s' : State ι Img Sql Row) : Prop := ∀ q ∈ s'.polls, q ∈ s.polls

section

omit [LinearOrder ι]

theorem Thins.trans (h : Thins s s') (h' : Thins s' s'') : Thins s s'' :=
  fun q hq => h q (h' q hq)

theorem Thins.of_eq (h : s'.polls = s.polls) : Thins s s' := fun q hq => by rwa [h] at hq

theorem Hears.thins (h : Hears site e s s') : Thins s s' := fun q hq => (h.polls q hq).1

theorem thins_foldl {f : State ι Img Sql Row → ι → State ι Img Sql Row}
    (hf : ∀ s o, Thins s (f s o)) (objects : List ι) (s : State ι Img Sql Row) :
    Thins s (objects.foldl f s) := by
  induction objects generalizing s with
  | nil => exact fun _ hq => hq
  | cons o objects ih => exact (hf s o).trans (ih _)

end

theorem thins_revertClosure (seed : List ι) : Thins s (s.revertClosure seed) := by
  intro q hq
  rw [(reverted_revertClosure s seed).polls] at hq
  exact (List.mem_filter.mp hq).1

theorem thins_finishClosing : Thins s s.finishClosing := by
  unfold State.finishClosing
  split
  · exact fun _ hq => (List.mem_filter.mp hq).1
  · exact fun _ hq => hq

/-- A transaction parks nothing but its own poll. -/
def Parks (t : Txn ι Sql) (s s' : State ι Img Sql Row) : Prop :=
  ∀ q ∈ s'.polls, q ∈ s.polls ∨ ∃ po op, t.poll = some po ∧ t.ops = [op] ∧
    q = (op.object, ⟨po.conn, po.frame, op.sql, po.durable, po.baseline, t.resp⟩)

omit [LinearOrder ι] in
theorem Thins.parks (h : Thins s s') : Parks t s s' := fun q hq => .inl (h q hq)

theorem parks_register {po : PollOpts} {op : Op ι Sql} {results : List (OpResult Row)}
    (hpo : t.poll = some po) (hops : t.ops = [op]) :
    Parks t s (s.register site e t po op.object op results) := by
  have hreg : Registered site e t po op.object op results s
      (s.register site e t po op.object op results) := registered_register po op.object op results
  generalize s.register site e t po op.object op results = s' at hreg ⊢
  cases hreg with
  | answered _ _ => exact (Thins.of_eq rfl).parks
  | refreshed _ _ _ _ _ _ => exact (Thins.of_eq (same_refreshIfStale _).polls).parks
  | parked hfresh _ =>
    intro q hq
    rcases List.mem_append.mp hq with hold | hnew
    · left
      rcases hfresh with rfl | ⟨-, -, rfl⟩
      · exact hold
      · rwa [(same_refreshIfStale _).polls] at hold
    · exact .inr ⟨po, op, hpo, hops, List.mem_singleton.mp hnew⟩

theorem parks_settle (results : List (OpResult Row)) (changed : List ι) :
    Parks t s (s.settle site e t results changed) := by
  unfold State.settle
  split_ifs with hread hclean
  · split
    · rename_i po o op hpo ho hop
      obtain ⟨op', hparticipants, hops, -⟩ := t.single (by rw [hpo]; rfl)
      rw [hparticipants] at ho
      rw [hops] at hop
      cases ho
      cases hop
      exact parks_register hpo hops
    · exact (Thins.of_eq rfl).parks
  · exact ((Thins.of_eq rfl).trans (hears_firePolls false t.participants).thins).parks
  · refine (Thins.trans (.of_eq ?_) (hears_firePolls false t.participants).thins).parks
    unfold State.acknowledge
    dsimp only
    split_ifs <;> rfl

theorem parks_runAndComplete : Parks t s (s.runAndComplete site e t) := by
  have hexecuted : Parks t (s.catchUp site e t) ((s.catchUp site e t).execute site e t) := by
    unfold State.execute
    have happlied : Applied site e t (s.catchUp site e t) ((s.catchUp site e t).apply site e t) :=
      applied_apply
    generalize (s.catchUp site e t).apply site e t = applied at happlied ⊢
    cases happlied with
    | refused error => exact (Thins.of_eq rfl).parks
    | half error seed =>
      exact ((thins_revertClosure seed).trans (.of_eq rfl)).parks
    | read _ _ => exact parks_settle _ _
    | wrote _ _ => exact parks_settle _ _
  intro q hq
  have hq := hears_maybeLaunch.thins q hq
  rcases hexecuted q hq with hold | hnew
  · left
    rwa [same_catchUp.polls] at hold
  · exact .inr hnew

theorem thins_landed {shipped promoted objects : List ι} :
    Thins s (s.landed site e shipped promoted objects) := by
  unfold State.landed
  dsimp only
  refine Thins.trans (.of_eq ?_) (hears_firePolls true _).thins
  split_ifs <;> rfl

theorem thins_onShipDone : Thins s (s.onShipDone site e) := by
  unfold State.onShipDone
  split
  · rename_i items waiters promoted objects _ _
    let docked := { s with boats := { s.boats with inflight := none }, ship := none }
    have hlanded : Thins docked
        (State.landed site e (items.map ShipItem.object) promoted objects docked) := thins_landed
    exact (hlanded.trans hears_maybeLaunch.thins).trans thins_finishClosing
  · rename_i items waiters rebased objects _ _
    refine Thins.trans ?_ thins_finishClosing
    refine Thins.trans ?_ hears_maybeLaunch.thins
    refine Thins.trans ?_ (thins_revertClosure objects)
    exact (hears_relinquish rebased : Hears site e _ _).thins
  · exact fun _ hq => hq

theorem thins_shutdown : Thins s (s.shutdown site e) := by
  have hclosing : Thins s { s with closing := true } := .of_eq rfl
  exact (hclosing.trans hears_maybeLaunch.thins).trans thins_finishClosing

theorem thins_recheckPolls : Thins s (s.recheckPolls site e) := by
  refine thins_foldl (fun s o => ?_) _ s
  obtain ⟨fresh, hsame, -, -, heq⟩ := recheck_cases site e s o
  change Thins s (s.recheck site e o)
  rw [heq]
  exact ((Thins.of_eq hsame.polls).trans (hears_firePolls true [o]).thins).trans
    (hears_firePolls false [o]).thins

theorem thins_release (o : ι) : Thins s (s.release o) := by
  unfold State.release
  split_ifs
  · exact fun _ hq => hq
  · exact fun _ hq => (List.mem_filter.mp hq).1

theorem polls_arrive (o : ι) : (s.arrive site e o).polls = s.polls := by
  unfold State.arrive
  split_ifs <;> rfl

theorem polls_onActivated {f : Fetch ι Img} {ok : Bool} :
    (s.onActivated site e f ok).polls = s.polls := by
  unfold State.onActivated
  dsimp only
  split_ifs <;> rfl

omit [LinearOrder ι] in
theorem Thins.handle {next : State ι Img Sql Row} (h : Thins s next) : Thins s (s.handle next) := by
  unfold State.handle
  split_ifs
  · exact fun _ hq => hq
  · exact h

/-- A step parks nothing but the poll of the transaction it runs. -/
theorem thins_step {m : Move ι Img Sql} (hm : ∀ t, m ≠ .run t) : Thins s (s.step site (m, e)) := by
  have hquiet : Thins s { s with outbox := [] } := .of_eq rfl
  refine hquiet.trans ?_
  cases m with
  | run t => exact absurd rfl (hm t)
  | startFetch o => exact .of_eq (offshore_startFetch o).polls
  | activated i ok =>
    unfold State.step
    dsimp only
    split
    · exact fun _ hq => hq
    · exact Thins.handle (.of_eq polls_onActivated)
  | shipDone => exact Thins.handle thins_onShipDone
  | shutdown => exact Thins.handle thins_shutdown
  | shed => exact Thins.handle (.of_eq rfl)
  | recheckPolls => exact Thins.handle thins_recheckPolls
  | cancelPoll o conn frame => exact Thins.handle fun _ hq => (List.mem_filter.mp hq).1
  | release o => exact Thins.handle (thins_release o)
  | arrive o => exact Thins.handle (.of_eq (polls_arrive o))
  | commit => exact .of_eq offshore_commit.polls
  | fail landed rebased msg => exact .of_eq (offshore_fail landed rebased msg).polls
  | clear o => exact .of_eq (offshore_clear o).polls
  | promote o => exact .of_eq (offshore_promote o).polls
  | recover o => exact .of_eq (lands_recoverTouching _ _ o).1.polls
  | forget i => exact .of_eq (offshore_forget i).polls
  | peer o image => exact .of_eq (offshore_peer o image).polls
  | peerClear o seq => exact .of_eq (offshore_peerClear o seq).polls

theorem parks_step_run : Parks t s (s.step site (.run t, e)) := by
  change Parks t s (State.handle { s with outbox := [] }
    (State.runAndComplete site e t { s with outbox := [] }))
  unfold State.handle
  split_ifs
  · exact fun q hq => .inl hq
  · exact (parks_runAndComplete : Parks t { s with outbox := [] } _)

variable {n : Nat} {node node' : Node n ι Img Sql Row} {h h' : Hosted ι Img Sql Row}
  {w : Fin n} {r : Nat} {calls calls' : List (Call ι Sql)}

/-- The call is a poll of this object, connection and frame. -/
def Asks (calls : List (Call ι Sql)) (r : Nat) (object : ι) (conn frame : Nat) : Prop :=
  ∃ call, calls[r]? = some call ∧ call.object = object ∧ call.conn = conn ∧ call.frame = frame

section

omit [LinearOrder ι]

theorem Asks.lt {object : ι} {conn frame : Nat} (h : Asks calls r object conn frame) :
    r < calls.length := by
  obtain ⟨call, hcall, -⟩ := h
  exact (List.getElem?_eq_some_iff.mp hcall).1

theorem Asks.append {object : ι} {conn frame : Nat} (h : Asks calls r object conn frame)
    (more : List (Call ι Sql)) : Asks (calls ++ more) r object conn frame := by
  have hlt := h.lt
  obtain ⟨call, hcall, hkey⟩ := h
  exact ⟨call, by rwa [List.getElem?_append_left hlt], hkey⟩

theorem Asks.unique {object object' : ι} {conn conn' frame frame' : Nat}
    (h : Asks calls r object conn frame) (h' : Asks calls r object' conn' frame') :
    object = object' ∧ conn = conn' ∧ frame = frame' := by
  obtain ⟨call, hcall, rfl, rfl, rfl⟩ := h
  obtain ⟨call', hcall', rfl, rfl, rfl⟩ := h'
  obtain rfl := Option.some.inj (hcall.symm.trans hcall')
  exact ⟨rfl, rfl, rfl⟩

end

/-- The cancellation is meant for calls with its key. -/
def Cancel.Fits (calls : List (Call ι Sql)) (c : Cancel ι) : Prop :=
  ∀ r ∈ c.meant, Asks calls r c.object c.conn c.frame

omit [LinearOrder ι] in
theorem Cancel.Fits.append {c : Cancel ι} (h : c.Fits calls) (more : List (Call ι Sql)) :
    c.Fits (calls ++ more) := fun r hr => (h r hr).append more

/-- What a worker has of polls and cancellations is what was asked for. -/
structure Hosted.Sound (calls : List (Call ι Sql)) (h : Hosted ι Img Sql Row) : Prop where
  submits : ∀ r, .submit r ∈ h.mailbox → r < calls.length
  cancels : ∀ c, .cancelPoll c ∈ h.mailbox → c.Fits calls
  waiting : ∀ t ∈ h.waiting, ∃ po op, t.poll = some po ∧ t.ops = [op] ∧
    Asks calls t.resp op.object po.conn po.frame
  parked : ∀ q ∈ h.worker.polls, Asks calls q.2.resp q.1 q.2.conn q.2.frame

omit [LinearOrder ι] in
theorem Hosted.Sound.append (hs : h.Sound calls) (more : List (Call ι Sql)) :
    h.Sound (calls ++ more) where
  submits r hr := by
    have hlt := hs.submits r hr
    rw [List.length_append]
    omega
  cancels c hc := (hs.cancels c hc).append more
  waiting t ht := by
    obtain ⟨po, op, hpo, hops, hasks⟩ := hs.waiting t ht
    exact ⟨po, op, hpo, hops, hasks.append more⟩
  parked q hq := (hs.parked q hq).append more

/-- Every call that is under way, and every one that a cancellation was meant for, has been made. -/
structure Node.Sound (s : Node n ι Img Sql Row) : Prop where
  workers : ∀ w, (s.workers w).Sound s.calls
  opening : ∀ r ∈ s.opening, r < s.calls.length
  cancels : ∀ c ∈ s.cancels, c.Fits s.calls
  cancelled : ∀ r ∈ s.cancelled, r < s.calls.length

section

omit [LinearOrder ι]

theorem Node.Sound.update {s : Node n ι Img Sql Row} (hs : s.Sound) (hh : h.Sound s.calls) :
    (s.update w h).Sound where
  workers v := by
    by_cases hv : v = w
    · subst hv
      rw [Node.update_self]
      exact hh
    · rw [Node.update_of_ne s hv]
      exact hs.workers v
  opening := hs.opening
  cancels := hs.cancels
  cancelled := hs.cancelled

theorem Node.Sound.spawn {s : Node n ι Img Sql Row} (hs : s.Sound) (spawned : Fin n → Bool) :
    Node.Sound { s with spawned } :=
  ⟨hs.workers, hs.opening, hs.cancels, hs.cancelled⟩

theorem Hosted.coming_iff :
    h.coming r = true ↔ .submit r ∈ h.mailbox ∨ ∃ t ∈ h.waiting, t.resp = r := by
  have hmail : h.mailbox.any (Msg.submits r) = true ↔ .submit r ∈ h.mailbox := by
    rw [List.any_eq_true]
    constructor
    · rintro ⟨msg, hmsg, hsubmits⟩
      cases msg with
      | submit r' =>
        obtain rfl : r' = r := of_decide_eq_true hsubmits
        exact hmsg
      | cancelPoll c => cases hsubmits
    · intro hmsg
      exact ⟨_, hmsg, decide_eq_true rfl⟩
  rw [Hosted.coming, Bool.or_eq_true, hmail, List.any_eq_true]
  simp only [decide_eq_true_eq]

theorem Hosted.parks_iff : h.parks r = true ↔ ∃ q ∈ h.worker.polls, q.2.resp = r := by
  rw [Hosted.parks, List.any_eq_true]
  simp only [decide_eq_true_eq]

end

/-- The worker has the call, sent or parked. -/
def Hosted.Has (h : Hosted ι Img Sql Row) (r : Nat) : Prop := h.coming r ∨ h.parks r

omit [LinearOrder ι] in
/-- A worker that comes by no call leaves nothing pending that was not. -/
theorem Node.Pending.of_update {s : Node n ι Img Sql Row} (hp : (s.update w h).Pending r)
    (hhas : h.Has r → (s.workers w).Has r) : s.Pending r := by
  rcases hp with hopening | ⟨v, hv⟩
  · exact .inl hopening
  · by_cases hvw : v = w
    · subst hvw
      rw [Node.update_self] at hv
      exact .inr ⟨v, hhas hv⟩
    · rw [Node.update_of_ne s hvw] at hv
      exact .inr ⟨v, hv⟩

/-- The worker comes by no call, and all it has is still what was asked for. -/
structure Hosted.Follows (calls : List (Call ι Sql)) (h h' : Hosted ι Img Sql Row) : Prop where
  sound : h.Sound calls → h'.Sound calls
  has : ∀ r, h'.Has r → h.Has r

theorem Hosted.follows_step {m : Move ι Img Sql} (hm : ∀ t, m ≠ .run t) :
    h.Follows calls (h.step site e m) where
  sound hs := ⟨hs.submits, hs.cancels, hs.waiting, fun q hq => hs.parked q (thins_step hm q hq)⟩
  has r hr := by
    rcases hr with hcoming | hparks
    · exact .inl hcoming
    · obtain ⟨q, hq, hresp⟩ := parks_iff.mp hparks
      exact .inr (parks_iff.mpr ⟨q, thins_step hm q hq, hresp⟩)

/-- What runs without being a poll parks nothing. -/
theorem Hosted.follows_step_txn (ht : t.poll = none) :
    h.Follows calls (h.step site e (.run t)) := by
  have hthins : Thins h.worker (h.worker.step site (.run t, e)) := by
    intro q hq
    rcases parks_step_run q hq with hold | ⟨po, op, hpo, -⟩
    · exact hold
    · rw [ht] at hpo
      cases hpo
  refine ⟨fun hs => ⟨hs.submits, hs.cancels, hs.waiting, fun q hq => hs.parked q (hthins q hq)⟩,
    fun r hr => ?_⟩
  rcases hr with hcoming | hparks
  · exact .inl hcoming
  · obtain ⟨q, hq, hresp⟩ := parks_iff.mp hparks
    exact .inr (parks_iff.mpr ⟨q, hthins q hq, hresp⟩)

/-- A poll that runs was waiting. -/
theorem Hosted.follows_run {i : Nat} (ht : h.waiting[i]? = some t) (hs : h.Sound calls) :
    h.Follows calls ({ h with waiting := h.waiting.eraseIdx i }.step site e (.run t)) := by
  have hmem : t ∈ h.waiting := List.mem_of_getElem? ht
  obtain ⟨po, op, hpo, hops, hasks⟩ := hs.waiting t hmem
  have hparks : ∀ q ∈ (h.worker.step site (.run t, e)).polls, q ∈ h.worker.polls ∨
      q = (op.object, ⟨po.conn, po.frame, op.sql, po.durable, po.baseline, t.resp⟩) := by
    intro q hq
    rcases parks_step_run q hq with hold | ⟨po', op', hpo', hops', rfl⟩
    · exact .inl hold
    · obtain rfl := Option.some.inj (hpo.symm.trans hpo')
      obtain rfl : op = op' := by
        rw [hops] at hops'
        exact (List.cons.inj hops').1
      exact .inr rfl
  constructor
  · intro _
    refine ⟨hs.submits, hs.cancels, fun u hu => hs.waiting u (List.mem_of_mem_eraseIdx hu), ?_⟩
    intro q hq
    rcases hparks q hq with hold | rfl
    · exact hs.parked q hold
    · exact hasks
  · intro r hr
    rcases hr with hcoming | hr
    · left
      rcases coming_iff.mp hcoming with hsent | ⟨u, hu, hresp⟩
      · exact coming_iff.mpr (.inl hsent)
      · exact coming_iff.mpr (.inr ⟨u, List.mem_of_mem_eraseIdx hu, hresp⟩)
    · obtain ⟨q, hq, hresp⟩ := parks_iff.mp hr
      rcases hparks q hq with hold | rfl
      · exact .inr (parks_iff.mpr ⟨q, hold, hresp⟩)
      · exact .inl (coming_iff.mpr (.inr ⟨t, hmem, hresp⟩))

omit [LinearOrder ι] in
theorem Hosted.Follows.trans {h'' : Hosted ι Img Sql Row} (hf : h.Follows calls h')
    (hf' : h'.Follows calls h'') : h.Follows calls h'' :=
  ⟨fun hs => hf'.sound (hf.sound hs), fun r hr => hf.has r (hf'.has r hr)⟩

omit [LinearOrder ι] in
/-- A message is taken out of the channel, and polls may begin to wait. -/
theorem Hosted.follows_take {mailbox : List (Msg ι)} {waiting : List (Txn ι Sql)}
    (hmail : ∀ msg ∈ mailbox, msg ∈ h.mailbox)
    (hwaiting : ∀ t ∈ waiting, t ∈ h.waiting ∨ .submit t.resp ∈ h.mailbox ∧ ∃ po op,
      t.poll = some po ∧ t.ops = [op] ∧ Asks calls t.resp op.object po.conn po.frame) :
    h.Follows calls { h with mailbox, waiting } := by
  constructor
  · intro hs
    refine ⟨fun r hr => hs.submits r (hmail _ hr), fun c hc => hs.cancels c (hmail _ hc), ?_,
      hs.parked⟩
    intro t ht
    rcases hwaiting t ht with hold | ⟨-, hasks⟩
    · exact hs.waiting t hold
    · exact hasks
  · intro r hr
    rcases hr with hcoming | hparks
    · left
      rcases coming_iff.mp hcoming with hsent | ⟨t, ht, rfl⟩
      · exact coming_iff.mpr (.inl (hmail _ hsent))
      · rcases hwaiting t ht with hold | ⟨hsent, -⟩
        · exact coming_iff.mpr (.inr ⟨t, hold, rfl⟩)
        · exact coming_iff.mpr (.inl hsent)
    · exact .inr hparks

/-- A message that is received stays with the worker. -/
theorem Hosted.follows_receive {txn : Nat} : h.Follows calls (h.receive site e calls txn) := by
  unfold Hosted.receive
  split
  · exact ⟨id, fun _ => id⟩
  · rename_i resp rest hmail
    have hrest : ∀ msg ∈ rest, msg ∈ h.mailbox := fun msg hmsg => by
      rw [hmail]
      exact List.mem_cons_of_mem _ hmsg
    have hsubmit : .submit resp ∈ h.mailbox := by
      rw [hmail]
      exact List.mem_cons_self
    split
    · rename_i call hcall
      refine follows_take hrest fun t ht => ?_
      rcases List.mem_append.mp ht with hold | hnew
      · exact .inl hold
      · rw [List.mem_singleton.mp hnew]
        exact .inr ⟨hsubmit, _, _, rfl, rfl, call, hcall, rfl, rfl, rfl⟩
    · exact follows_take hrest fun t ht => .inl ht
  · rename_i c rest hmail
    have hrest : ∀ msg ∈ rest, msg ∈ h.mailbox := fun msg hmsg => by
      rw [hmail]
      exact List.mem_cons_of_mem _ hmsg
    have hdropped : h.Follows calls { h with mailbox := rest } :=
      follows_take hrest fun t ht => .inl ht
    exact hdropped.trans (follows_step nofun)

/-- The call has yet to reach a worker, waits to run, or is parked with another worker. -/
def Node.Elsewhere (s : Node n ι Img Sql Row) (w : Fin n) (r : Nat) : Prop :=
  r ∈ s.opening ∨ ∃ v, (s.workers v).coming r ∨ v ≠ w ∧ (s.workers v).parks r

/-- The calls that a handled cancellation was meant for are parked nowhere, and nowhere on their way
to be: they have been answered, or have fired and ride a boat. -/
def Node.CancelsComplete (s : Node n ι Img Sql Row) : Prop :=
  ∀ r ∈ s.cancelled, ¬ s.Pending r

/-- A cancellation that a worker handles finds the calls it is meant for parked there, or nowhere.
-/
def Node.CancelsParked (s : Node n ι Img Sql Row) (m : SessionMove n ι Img Sql × NodeEnv n ι) :
    Prop :=
  match m.1 with
  | .handle w _ => (s.workers w).alive = true → ∀ c rest,
      (s.workers w).mailbox = .cancelPoll c :: rest → ∀ r ∈ c.meant, ¬ s.Elsewhere w r
  | _ => True

/-- No call that was made before is pending anew, or newly cancelled. -/
structure Node.Follows (s s' : Node n ι Img Sql Row) : Prop where
  sound : s.Sound → s'.Sound
  pending : ∀ r, s'.Pending r → s.Pending r ∨ s.calls.length ≤ r
  cancelled : s'.cancelled = s.cancelled

section

omit [LinearOrder ι]

theorem Node.Follows.complete {s s' : Node n ι Img Sql Row} (hf : s.Follows s') (hs : s.Sound)
    (hc : s.CancelsComplete) : s'.CancelsComplete := by
  intro r hr hpending
  rw [hf.cancelled] at hr
  rcases hf.pending r hpending with hold | hnew
  · exact hc r hr hold
  · have hlt := hs.cancelled r hr
    omega

theorem Node.follows_update {s : Node n ι Img Sql Row} (hf : (s.workers w).Follows s.calls h) :
    s.Follows (s.update w h) where
  sound hs := hs.update (hf.sound (hs.workers w))
  pending r hr := .inl (hr.of_update (hf.has r))
  cancelled := rfl

/-- A message is sent to a worker. -/
theorem Node.follows_post {s s' : Node n ι Img Sql Row} (hf : s.Follows s') {e : NodeEnv n ι}
    {object : ι} {msg : Msg ι} (hcalls : s'.calls = s.calls)
    (hsubmit : ∀ r, msg = .submit r → r < s.calls.length ∧ s.Pending r)
    (hcancel : s.Sound → ∀ c, msg = .cancelPoll c → c.Fits s.calls) :
    s.Follows (s'.post e object msg) := by
  unfold Node.post
  dsimp only
  split_ifs
  · generalize e.owner object = w
    constructor
    · intro hs
      have hs' := hf.sound hs
      refine Node.Sound.spawn (s := s'.update w _) (hs'.update ?_) _
      refine ⟨fun r hr => ?_, fun c hc => ?_, (hs'.workers w).waiting, (hs'.workers w).parked⟩
      · rcases List.mem_append.mp hr with hold | hnew
        · exact (hs'.workers w).submits r hold
        · rw [hcalls]
          exact (hsubmit r (List.mem_singleton.mp hnew).symm).1
      · rcases List.mem_append.mp hc with hold | hnew
        · exact (hs'.workers w).cancels c hold
        · rw [hcalls]
          exact hcancel hs c (List.mem_singleton.mp hnew).symm
    · intro r hr
      by_cases hmsg : msg = .submit r
      · exact .inl (hsubmit r hmsg).2
      · refine hf.pending r (hr.of_update fun hhas => ?_)
        rcases hhas with hcoming | hparks
        · left
          rcases Hosted.coming_iff.mp hcoming with hsent | hwaits
          · rcases List.mem_append.mp hsent with hold | hnew
            · exact Hosted.coming_iff.mpr (.inl hold)
            · exact absurd (List.mem_singleton.mp hnew).symm hmsg
          · exact Hosted.coming_iff.mpr (.inr hwaits)
        · exact .inr hparks
    · exact hf.cancelled
  · exact hf

theorem Node.Follows.refl (s : Node n ι Img Sql Row) : s.Follows s :=
  ⟨id, fun _ => .inl, rfl⟩

theorem Node.follows_poll (s : Node n ι Img Sql Row) (call : Call ι Sql) :
    s.Follows (s.poll call) where
  sound hs := by
    refine ⟨fun w => (hs.workers w).append [call], fun r hr => ?_,
      fun c hc => (hs.cancels c hc).append [call], fun r hr => ?_⟩
    · change r < (s.calls ++ [call]).length
      rw [List.length_append, List.length_singleton]
      rcases List.mem_append.mp hr with hold | hnew
      · have hlt := hs.opening r hold
        omega
      · rw [List.mem_singleton.mp hnew]
        exact Nat.lt_succ_self _
    · change r < (s.calls ++ [call]).length
      rw [List.length_append, List.length_singleton]
      have hlt := hs.cancelled r hr
      omega
  pending r hr := by
    rcases hr with hopening | hworkers
    · rcases List.mem_append.mp hopening with hold | hnew
      · exact .inl (.inl hold)
      · exact .inr (List.mem_singleton.mp hnew).ge
    · exact .inl (.inr hworkers)
  cancelled := rfl

theorem Node.follows_submit {s : Node n ι Img Sql Row} {e : NodeEnv n ι} (i : Nat) :
    s.Follows (s.submit e i) := by
  unfold Node.submit
  split
  · exact .refl s
  · rename_i resp hresp
    split
    · exact .refl s
    · rename_i call hcall
      have hmem : resp ∈ s.opening := List.mem_of_getElem? hresp
      have hf : s.Follows { s with opening := s.opening.eraseIdx i } := by
        refine ⟨fun hs => ⟨hs.workers, fun r hr => hs.opening r (List.mem_of_mem_eraseIdx hr),
          hs.cancels, hs.cancelled⟩, fun r hr => .inl ?_, rfl⟩
        rcases hr with hopening | hworkers
        · exact .inl (List.mem_of_mem_eraseIdx hopening)
        · exact .inr hworkers
      refine follows_post hf rfl (fun r hr => ?_) (fun _ c hc => by cases hc)
      cases hr
      exact ⟨(List.getElem?_eq_some_iff.mp hcall).1, .inl hmem⟩

theorem Node.follows_reply {s : Node n ι Img Sql Row} (i : Nat) : s.Follows (s.reply i) := by
  unfold Node.reply
  split
  · exact .refl s
  · split
    · exact .refl s
    · split
      · exact .refl s
      · exact ⟨fun hs => ⟨hs.workers, hs.opening, hs.cancels, hs.cancelled⟩, fun _ => .inl, rfl⟩

end

theorem Node.fits_meant (s : Node n ι Img Sql Row) (object : ι) (conn frame : Nat) :
    Cancel.Fits s.calls ⟨object, conn, frame, s.meant object conn frame⟩ := by
  intro r hr
  obtain ⟨call, hcall, hkey⟩ := (Option.any_eq_true _ _).mp (List.mem_filter.mp hr).2
  exact ⟨call, hcall, of_decide_eq_true hkey⟩

omit [LinearOrder ι] in
theorem Node.follows_cancels {s : Node n ι Img Sql Row} (more : List (Cancel ι))
    (hmore : ∀ c ∈ more, c.Fits s.calls) (outstanding : Nat → AList fun _ : Nat => ι)
    (closed : List Nat) :
    s.Follows { s with outstanding, cancels := s.cancels ++ more, closed } := by
  refine ⟨fun hs => ⟨hs.workers, hs.opening, fun c hc => ?_, hs.cancelled⟩, fun _ => .inl, rfl⟩
  rcases List.mem_append.mp hc with hold | hnew
  · exact hs.cancels c hold
  · exact hmore c hnew

theorem Node.follows_cancel {s : Node n ι Img Sql Row} (conn frame : Nat) :
    s.Follows (s.cancel conn frame) := by
  unfold Node.cancel
  split
  · exact .refl s
  · refine follows_cancels _ (fun c hc => ?_) _ s.closed
    rw [List.mem_singleton.mp hc]
    exact s.fits_meant _ _ _

theorem Node.follows_close {s : Node n ι Img Sql Row} (conn : Nat) : s.Follows (s.close conn) := by
  refine follows_cancels _ (fun c hc => ?_) _ (conn :: s.closed)
  obtain ⟨entry, -, rfl⟩ := List.mem_map.mp hc
  exact s.fits_meant _ _ _

omit [LinearOrder ι] in
theorem Node.follows_send {s : Node n ι Img Sql Row} {e : NodeEnv n ι} (i : Nat) :
    s.Follows (s.send e i) := by
  unfold Node.send
  split
  · exact .refl s
  · rename_i c hc
    have hf : s.Follows { s with
        cancels := s.cancels.eraseIdx i
        addressed := s.addressed ++ c.meant.map fun resp => (resp, e.owner c.object) } :=
      ⟨fun hs => ⟨hs.workers, hs.opening, fun c hc => hs.cancels c (List.mem_of_mem_eraseIdx hc),
        hs.cancelled⟩, fun _ => .inl, rfl⟩
    refine follows_post hf rfl nofun fun hs c' hc' => ?_
    cases hc'
    exact hs.cancels c (List.mem_of_getElem? hc)

theorem Node.follows_run {s : Node n ι Img Sql Row} {e : NodeEnv n ι} (hs : s.Sound) (i : Nat) :
    s.Follows (s.run site e w i) := by
  unfold Node.run
  dsimp only
  split
  · exact .refl s
  · rename_i t ht
    split_ifs
    · exact follows_update (Hosted.follows_run ht (hs.workers w))
    · exact .refl s

omit [LinearOrder ι] in
theorem Node.follows_giveUp {s : Node n ι Img Sql Row} (i : Nat) : s.Follows (s.giveUp w i) :=
  follows_update (Hosted.follows_take (fun _ => id) fun _ ht => .inl (List.mem_of_mem_eraseIdx ht))

theorem Node.follows_work {s : Node n ι Img Sql Row} {e : NodeEnv n ι} (m : Move ι Img Sql) :
    s.Follows (s.work site e w m) := by
  unfold Node.work
  split
  · rename_i t
    split_ifs with ht
    · exact .refl s
    · exact follows_update (Hosted.follows_step_txn (Option.not_isSome_iff_eq_none.mp ht))
  · exact .refl s
  · rename_i hrun _
    exact follows_update (Hosted.follows_step hrun)

omit [LinearOrder ι] in
theorem Node.follows_leave {s : Node n ι Img Sql Row} : s.Follows (s.leave w) := by
  unfold Node.leave
  dsimp only
  split_ifs
  · exact .refl s
  · refine follows_update ⟨fun _ => ⟨nofun, nofun, nofun, nofun⟩, fun r hr => ?_⟩
    rcases hr with hcoming | hparks
    · cases hcoming
    · cases hparks

variable {c : Cancel ι} {rest : List (Msg ι)} {txn : Nat}

theorem Hosted.receive_cancelPoll (hmail : h.mailbox = .cancelPoll c :: rest) :
    h.receive site e calls txn = Hosted.step site e (.cancelPoll c.object c.conn c.frame)
      { h with mailbox := rest } := by
  unfold Hosted.receive
  rw [hmail]

theorem Hosted.coming_cancelled (hmail : h.mailbox = .cancelPoll c :: rest) :
    (h.receive site e calls txn).coming r = h.coming r := by
  rw [receive_cancelPoll hmail, coming, coming, hmail]
  rfl

/-- The poll of a call that the cancellation fits is no longer parked. -/
theorem Hosted.not_parks_cancelled (hs : h.Sound calls) (halive : h.alive = true)
    (hmail : h.mailbox = .cancelPoll c :: rest) (hr : r ∈ c.meant) :
    ¬ (h.receive site e calls txn).parks r = true := by
  intro hparks
  rw [receive_cancelPoll hmail] at hparks
  obtain ⟨q, hq, rfl⟩ := parks_iff.mp hparks
  have hruns : (h.worker.done || h.worker.panicked) = false := by
    simpa [alive] using halive
  change q ∈ (State.handle { h.worker with outbox := [] }
    (State.cancelPoll c.object c.conn c.frame { h.worker with outbox := [] })).polls at hq
  unfold State.handle at hq
  rw [if_neg (by rw [hruns]; exact Bool.false_ne_true)] at hq
  obtain ⟨hold, hkept⟩ := List.mem_filter.mp hq
  have hfits : c.Fits calls := hs.cancels c (by rw [hmail]; exact List.mem_cons_self)
  obtain ⟨hobject, hconn, hframe⟩ := (hs.parked q hold).unique (hfits _ hr)
  rw [hobject, hconn, hframe] at hkept
  simp at hkept

/-- What a handled message leaves behind. -/
theorem Node.handle_cases (s : Node n ι Img Sql Row) (e : NodeEnv n ι) (w : Fin n) (txn : Nat) :
    (s.Follows (s.handle site e w txn) ∧ ∀ c rest, (s.workers w).mailbox = .cancelPoll c :: rest →
      (s.workers w).alive = false) ∨
    ∃ c rest, (s.workers w).mailbox = .cancelPoll c :: rest ∧ (s.workers w).alive = true ∧
      s.handle site e w txn =
        { s.update w ((s.workers w).receive site e.env s.calls txn) with
          cancelled := s.cancelled ++ c.meant } := by
  unfold Node.handle
  dsimp only
  split_ifs with halive
  · split
    · rename_i c rest hmail
      exact .inr ⟨c, rest, hmail, halive, rfl⟩
    · rename_i hnot
      exact .inl ⟨follows_update Hosted.follows_receive,
      fun c rest hmail => absurd hmail (hnot c rest)⟩
  · exact .inl ⟨.refl s, fun _ _ _ => Bool.eq_false_iff.mpr halive⟩

/-- A call that is elsewhere stays there. -/
theorem Node.pending_cancelled {s : Node n ι Img Sql Row} {e : Env ι}
    (hmail : (s.workers w).mailbox = .cancelPoll c :: rest) (hr : s.Elsewhere w r) :
    (s.update w ((s.workers w).receive site e s.calls txn)).Pending r := by
  rcases hr with hopening | ⟨v, hv⟩
  · exact .inl hopening
  · refine .inr ⟨v, ?_⟩
    by_cases hvw : v = w
    · subst hvw
      rw [update_self, Hosted.coming_cancelled hmail]
      exact .inl (hv.resolve_right fun hparks => hparks.1 rfl)
    · rw [update_of_ne s hvw]
      exact hv.imp_right And.right

/-- A call that the cancellation is meant for, and that is not elsewhere, is pending no more. -/
theorem Node.not_pending_cancelled {s : Node n ι Img Sql Row} (hs : s.Sound) {e : Env ι}
    (halive : (s.workers w).alive = true)
    (hmail : (s.workers w).mailbox = .cancelPoll c :: rest) (hmeant : r ∈ c.meant)
    (hr : ¬ s.Elsewhere w r) :
    ¬ (s.update w ((s.workers w).receive site e s.calls txn)).Pending r := by
  rintro (hopening | ⟨v, hv⟩)
  · exact hr (.inl hopening)
  · by_cases hvw : v = w
    · subst hvw
      rw [update_self, Hosted.coming_cancelled hmail] at hv
      rcases hv with hcoming | hparks
      · exact hr (.inr ⟨v, .inl hcoming⟩)
      · exact Hosted.not_parks_cancelled (hs.workers v) halive hmail hmeant hparks
    · rw [update_of_ne s hvw] at hv
      exact hr (.inr ⟨v, hv.imp_right fun hparks => ⟨hvw, hparks⟩⟩)

/-- What holds along a run. -/
def Node.Kept (s : Node n ι Img Sql Row) : Prop := s.Sound ∧ s.CancelsComplete

theorem Node.Kept.handle {s : Node n ι Img Sql Row} (hs : s.Kept) {e : NodeEnv n ι}
    (hgood : s.CancelsParked (.handle w txn, e)) : (s.handle site e w txn).Kept := by
  obtain ⟨hsound, hcomplete⟩ := hs
  rcases handle_cases s e w txn with ⟨hf, -⟩ | ⟨c, rest, hmail, halive, heq⟩
  · exact ⟨hf.sound hsound, hf.complete hsound hcomplete⟩
  · have hf : s.Follows (s.update w ((s.workers w).receive site e.env s.calls txn)) :=
      follows_update Hosted.follows_receive
    have hfits : c.Fits s.calls :=
      (hsound.workers w).cancels c (by rw [hmail]; exact List.mem_cons_self)
    rw [heq]
    constructor
    · have hupdated := hf.sound hsound
      refine ⟨hupdated.workers, hupdated.opening, hupdated.cancels, fun r hr => ?_⟩
      rcases List.mem_append.mp hr with hold | hnew
      · exact hsound.cancelled r hold
      · exact (hfits r hnew).lt
    · intro r hr hpending
      rcases List.mem_append.mp hr with hold | hnew
      · exact hf.complete hsound hcomplete r hold hpending
      · exact not_pending_cancelled hsound halive hmail hnew (hgood halive c rest hmail r hnew)
          hpending

theorem Node.Kept.step {s : Node n ι Img Sql Row} (hs : s.Kept)
    (m : SessionMove n ι Img Sql × NodeEnv n ι) (hgood : s.CancelsParked m) :
    (s.step site m).Kept := by
  have hfollows {s' : Node n ι Img Sql Row} (hf : s.Follows s') : s'.Kept :=
    ⟨hf.sound hs.1, hf.complete hs.1 hs.2⟩
  obtain ⟨move, e⟩ := m
  cases move with
  | poll call => exact hfollows (follows_poll s call)
  | submit i => exact hfollows (follows_submit i)
  | reply i => exact hfollows (follows_reply i)
  | cancel conn frame => exact hfollows (follows_cancel conn frame)
  | close conn => exact hfollows (follows_close conn)
  | send i => exact hfollows (follows_send i)
  | handle w txn => exact hs.handle hgood
  | run w i => exact hfollows (follows_run hs.1 i)
  | giveUp w i => exact hfollows (follows_giveUp i)
  | work w m => exact hfollows (follows_work m)
  | leave w => exact hfollows follows_leave

/-- A cancellation that overlooks a call leaves it pending. -/
theorem Node.not_complete {s : Node n ι Img Sql Row}
    {m : SessionMove n ι Img Sql × NodeEnv n ι} (hbad : ¬ s.CancelsParked m) :
    ¬ (s.step site m).CancelsComplete := by
  obtain ⟨move, e⟩ := m
  cases move with
  | handle w txn =>
    intro hcomplete
    apply hbad
    intro halive c rest hmail r hmeant hr
    change (s.handle site e w txn).CancelsComplete at hcomplete
    rcases handle_cases s e w txn with ⟨-, hdead⟩ | ⟨c', rest', hmail', -, heq⟩
    · rw [hdead c rest hmail] at halive
      cases halive
    · obtain ⟨hc, -⟩ := List.cons.inj (hmail.symm.trans hmail')
      cases hc
      rw [heq] at hcomplete
      exact hcomplete r (List.mem_append_right _ hmeant) (pending_cancelled hmail hr)
  | _ => exact absurd trivial hbad

omit [LinearOrder ι] in
theorem Node.kept_boot (shelf : Fin n → Shelf ι Img) :
    (Node.boot shelf : Node n ι Img Sql Row).Kept :=
  ⟨⟨fun _ => ⟨nofun, nofun, nofun, nofun⟩, nofun, nofun, nofun⟩, nofun⟩

/-- The cancellations that are handled are complete exactly when each finds its polls parked with
the worker that handles it, or answered. -/
theorem Node.throughout_complete_iff (site : Site ι Img Sql Row) (shelf : Fin n → Shelf ι Img)
    (moves : List (SessionMove n ι Img Sql × NodeEnv n ι)) :
    Runs.Throughout (Node.step site) Node.CancelsComplete (Node.boot shelf) moves ↔
      Runs.Guarded (Node.step site) Node.CancelsParked (Node.boot shelf) moves :=
  Runs.throughout_iff_guarded (fun _ m hs hgood => hs.step m hgood) (fun _ hs => hs.2)
    (fun _ _ _ hbad => Node.not_complete hbad) (Node.kept_boot shelf)

end Fafo.Polls
