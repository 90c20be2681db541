import Fafo.PollsCancelled

/-! A connection that closes leaves no poll parked, as long as its frames register their polls in
time and each under an id of its own. -/
namespace Fafo.Polls

variable {ι Img Sql Row : Type} {site : Site ι Img Sql Row} {e : Env ι}
variable {s s' s'' : State ι Img Sql Row} {t : Txn ι Sql}

/-- The worker's task runs, or not, as before. -/
structure Persists (s s' : State ι Img Sql Row) : Prop where
  done : s'.done = s.done
  panicked : s'.panicked = s.panicked

theorem Persists.refl (s : State ι Img Sql Row) : Persists s s := ⟨rfl, rfl⟩

theorem Persists.trans (h : Persists s s') (h' : Persists s' s'') : Persists s s'' :=
  ⟨h'.done.trans h.done, h'.panicked.trans h.panicked⟩

theorem persists_foldl {α : Type} {f : State ι Img Sql Row → α → State ι Img Sql Row}
    (hf : ∀ s x, Persists s (f s x)) (xs : List α) (s : State ι Img Sql Row) :
    Persists s (xs.foldl f s) := by
  induction xs generalizing s with
  | nil => exact .refl s
  | cons x xs ih => exact (hf s x).trans (ih _)

variable [LinearOrder ι]

theorem persists_land (items : List (ShipItem ι Img)) : Persists s (s.land site items) := by
  unfold State.land
  split_ifs
  · exact persists_foldl (f := fun s item => s.logged item.object item.image)
      (fun _ _ => ⟨rfl, rfl⟩) items s
  · exact ⟨rfl, rfl⟩

theorem persists_recoverTouching (o : ι) : Persists s (s.recoverTouching site o) := by
  unfold State.recoverTouching
  split_ifs
  · exact .refl s
  · have hstaged (s : State ι Img Sql Row) (item : ShipItem ι Img) :
        Persists s (s.promoteStaged site item) := by
      unfold State.promoteStaged
      split_ifs <;> exact ⟨rfl, rfl⟩
    split
    rename_i touching others _
    have hfirst : Persists s { s with records := others } := ⟨rfl, rfl⟩
    exact hfirst.trans (persists_foldl hstaged touching.flatten _)

theorem persists_fail (landed : Bool) (rebased : Option ι) (msg : String) :
    Persists s (s.fail site landed rebased msg) := by
  unfold State.fail
  split
  · rename_i items waiters _
    have hland : Persists s (if landed && s.abreast site items then s.land site items else s) := by
      split_ifs
      · exact persists_land items
      · exact .refl s
    exact ⟨hland.done, hland.panicked⟩
  · exact .refl s

omit [LinearOrder ι] in
/-- A worker that has stopped handles no message. -/
theorem handle_stopped (h : (s.done || s.panicked) = true) (next : State ι Img Sql Row) :
    State.handle { s with outbox := [] } next = { s with outbox := [] } := if_pos h

theorem persists_stopped (site : Site ι Img Sql Row) (h : (s.done || s.panicked) = true)
    (m : Move ι Img Sql × Env ι) : Persists s (s.step site m) := by
  obtain ⟨move, e⟩ := m
  have hquiet : Persists s { s with outbox := [] } := ⟨rfl, rfl⟩
  cases move with
  | run t =>
    change Persists s (State.handle _ _)
    rw [handle_stopped h]
    exact hquiet
  | activated i ok =>
    unfold State.step
    dsimp only
    split
    · exact hquiet
    · rw [handle_stopped h]
      exact hquiet
  | startFetch o =>
    change Persists s (State.startFetch site e o { s with outbox := [] })
    unfold State.startFetch
    split_ifs
    · exact hquiet
    · have hrecovered : Persists { s with outbox := [] }
          (State.recoverTouching site o { s with outbox := [] }) := persists_recoverTouching o
      exact ⟨hrecovered.done, hrecovered.panicked⟩
  | commit =>
    change Persists s (State.commit site { s with outbox := [] })
    unfold State.commit
    split
    · rename_i items waiters _
      split_ifs
      · have hland : Persists { s with outbox := [] }
            (State.land site items { s with outbox := [] }) := persists_land items
        exact ⟨hland.done, hland.panicked⟩
      · exact hquiet
    · exact hquiet
  | fail landed rebased msg =>
    exact hquiet.trans (persists_fail landed rebased msg)
  | clear o =>
    change Persists s (State.clear site o { s with outbox := [] })
    obtain heq | ⟨-, items, waiters, rebased, item, -, -, -, heq⟩ :=
      clear_cases site { s with outbox := [] } o
    · rw [heq]
      exact hquiet
    · rw [heq]
      exact ⟨rfl, rfl⟩
  | promote o =>
    change Persists s (State.promote site o { s with outbox := [] })
    unfold State.promote
    split
    · split
      · split_ifs <;> exact ⟨rfl, rfl⟩
      · exact hquiet
    · exact hquiet
  | recover o => exact hquiet.trans (persists_recoverTouching o)
  | forget i =>
    change Persists s (State.forget site i { s with outbox := [] })
    unfold State.forget
    split
    · exact hquiet
    · split_ifs <;> exact ⟨rfl, rfl⟩
  | peer o image =>
    change Persists s (State.peer site o image { s with outbox := [] })
    unfold State.peer State.logged
    split_ifs <;> exact ⟨rfl, rfl⟩
  | peerClear o seq =>
    change Persists s (State.peerClear site o seq { s with outbox := [] })
    unfold State.peerClear State.erase
    split_ifs <;> exact ⟨rfl, rfl⟩
  | shipDone | shutdown | shed | recheckPolls | cancelPoll | release | arrive =>
    change Persists s (State.handle _ _)
    rw [handle_stopped h]
    exact hquiet

/-- A worker that has stopped parks nothing. -/
theorem thins_stopped (site : Site ι Img Sql Row) (h : (s.done || s.panicked) = true)
    (m : Move ι Img Sql × Env ι) : Thins s (s.step site m) := by
  obtain ⟨move, e⟩ := m
  by_cases hrun : ∀ t, move ≠ .run t
  · exact thins_step hrun
  · obtain ⟨t, rfl⟩ := not_forall_not.mp hrun
    change Thins s (State.handle _ _)
    rw [handle_stopped h]
    exact .of_eq rfl

variable {n : Nat} {node node' : Node n ι Img Sql Row} {h h' : Hosted ι Img Sql Row}
  {w : Fin n} {r : Nat} {calls : List (Call ι Sql)} {handled : List Nat}

/-- The worker has stopped, and its polls are gone. -/
def Hosted.Gone (h : Hosted ι Img Sql Row) : Prop := h.alive = false ∧ h.worker.polls = []

theorem Hosted.Gone.step (hg : h.Gone) (m : Move ι Img Sql) : (h.step site e m).Gone := by
  obtain ⟨hdead, hpolls⟩ := hg
  have hstopped : (h.worker.done || h.worker.panicked) = true := by
    cases hdone : h.worker.done <;> simp_all [Hosted.alive]
  have hpersists := persists_stopped site hstopped (m, e)
  have hthins := thins_stopped site hstopped (m, e)
  constructor
  · unfold Hosted.alive Hosted.step
    dsimp only
    rw [hpersists.done, hpersists.panicked]
    exact hdead
  · refine List.eq_nil_iff_forall_not_mem.mpr fun q hq => ?_
    have hold := hthins q hq
    rw [hpolls] at hold
    cases hold

/-- The worker comes by no call, and a cancellation stays in its channel until it is handled. -/
structure Hosted.Keeps (handled : List Nat) (h h' : Hosted ι Img Sql Row) : Prop where
  mail : ∀ msg ∈ h'.mailbox, msg ∈ h.mailbox
  has : ∀ r, h'.Has r → h.Has r
  seeks : ∀ c, .cancelPoll c ∈ h.mailbox →
    .cancelPoll c ∈ h'.mailbox ∨ h'.Gone ∨ ∀ r ∈ c.meant, r ∈ handled
  gone : h.Gone → h'.Gone

theorem Hosted.keeps_step {m : Move ι Img Sql} (hf : h.Follows calls (h.step site e m)) :
    h.Keeps handled (h.step site e m) :=
  ⟨fun _ => id, hf.has, fun _ => .inl, fun hg => hg.step m⟩

theorem Hosted.keeps_run {i : Nat} (ht : h.waiting[i]? = some t) (hs : h.Sound calls)
    (halive : h.alive = true) :
    h.Keeps handled ({ h with waiting := h.waiting.eraseIdx i }.step site e (.run t)) := by
  refine ⟨fun _ => id, (follows_run ht hs).has, fun _ => .inl, fun hg => ?_⟩
  rw [hg.1] at halive
  cases halive

omit [LinearOrder ι] in
theorem Hosted.keeps_giveUp (i : Nat) :
    h.Keeps handled { h with waiting := h.waiting.eraseIdx i } :=
  have hfollows : h.Follows [] { h with waiting := h.waiting.eraseIdx i } :=
    follows_take (fun _ => id) fun _ ht => .inl (List.mem_of_mem_eraseIdx ht)
  ⟨fun _ => id, hfollows.has, fun _ => .inl, id⟩

omit [LinearOrder ι] in
theorem Hosted.keeps_leave (hdead : h.alive = false) : h.Keeps handled
    { h with mailbox := [], waiting := [], worker := { h.worker with polls := [] } } := by
  refine ⟨nofun, fun r hr => ?_, fun _ _ => .inr (.inl ⟨hdead, rfl⟩), fun _ => ⟨hdead, rfl⟩⟩
  rcases hr with hcoming | hparks
  · cases hcoming
  · cases hparks

/-- A message is handled, and its cancellation with it. -/
theorem Hosted.keeps_receive {txn : Nat} (halive : h.alive = true)
    (hhandled : ∀ c rest, h.mailbox = .cancelPoll c :: rest → ∀ r ∈ c.meant, r ∈ handled) :
    h.Keeps handled (h.receive site e calls txn) := by
  have hfollows : h.Follows calls (h.receive site e calls txn) := follows_receive
  have hgone (hg : h.Gone) : (h.receive site e calls txn).Gone := by
    rw [hg.1] at halive
    cases halive
  have hmailbox : (h.receive site e calls txn).mailbox = h.mailbox.tail := by
    unfold Hosted.receive
    split
    · rename_i hmail
      rw [hmail]
      rfl
    · rename_i resp rest hmail
      rw [hmail]
      split <;> rfl
    · rename_i c rest hmail
      rw [hmail]
      rfl
  refine ⟨fun msg hmsg => ?_, hfollows.has, fun c hc => ?_, hgone⟩
  · rw [hmailbox] at hmsg
    exact List.mem_of_mem_tail hmsg
  · rw [hmailbox]
    cases hmail : h.mailbox with
    | nil =>
      rw [hmail] at hc
      cases hc
    | cons msg rest =>
      rw [hmail] at hc
      rcases List.mem_cons.mp hc with rfl | hin
      · exact .inr (.inr (hhandled c rest hmail))
      · exact .inl hin

omit [LinearOrder ι] in
theorem Hosted.has_post {msg : Msg ι} :
    Hosted.Has { h with mailbox := h.mailbox ++ [msg] } r ↔ h.Has r ∨ msg = .submit r := by
  unfold Hosted.Has
  rw [coming_iff, coming_iff, List.mem_append, List.mem_singleton]
  constructor
  · rintro ((((hold | hnew) | hwaits)) | hparks)
    · exact .inl (.inl (.inl hold))
    · exact .inr hnew.symm
    · exact .inl (.inl (.inr hwaits))
    · exact .inl (.inr hparks)
  · rintro ((((hold | hwaits)) | hparks) | hnew)
    · exact .inl (.inl (.inl hold))
    · exact .inl (.inr hwaits)
    · exact .inr hparks
    · exact .inl (.inl (.inr hnew.symm))

/-- The call will never be parked with the worker. -/
def Node.Past (s : Node n ι Img Sql Row) (w : Fin n) (r : Nat) : Prop :=
  (r ∉ s.opening ∧ ¬ (s.workers w).Has r) ∨ (s.workers w).Gone

/-- A cancellation is meant for the call: it is yet to be sent, or to be handled, or has been
handled, or the worker that it was addressed to never has the call. -/
inductive Node.Sought (s : Node n ι Img Sql Row) (r : Nat) : Prop
  | unsent (c : Cancel ι) (hc : c ∈ s.cancels) (hr : r ∈ c.meant)
  | sent (w : Fin n) (c : Cancel ι) (hc : .cancelPoll c ∈ (s.workers w).mailbox) (hr : r ∈ c.meant)
  | handled (hr : r ∈ s.cancelled)
  | astray (w : Fin n) (hr : (r, w) ∈ s.addressed) (hpast : s.Past w r)

/-- The call is among what its connection has outstanding. -/
def Node.Listed (s : Node n ι Img Sql Row) (r : Nat) : Prop :=
  ∃ object conn frame, Asks s.calls r object conn frame ∧
    (s.outstanding conn).lookup frame = some object

/-- Whatever is pending is outstanding, or a cancellation is meant for it. -/
structure Node.Booked (s : Node n ι Img Sql Row) : Prop where
  running : ∀ r, s.Pending r → r ∈ s.running
  made : ∀ r ∈ s.running, r < s.calls.length
  apart : ∀ r ∈ s.running, ∀ r' ∈ s.running, ∀ object object' conn frame,
    Asks s.calls r object conn frame → Asks s.calls r' object' conn frame → r = r'
  closed : ∀ conn ∈ s.closed, s.outstanding conn = ∅
  sent : ∀ w c, .cancelPoll c ∈ (s.workers w).mailbox → ∀ r ∈ c.meant, (r, w) ∈ s.addressed
  spawned : ∀ w, s.spawned w = false → (s.workers w).mailbox = [] ∧ ∀ r, ¬ (s.workers w).Has r
  sought : ∀ r, s.Pending r → s.Sought r ∨ s.Listed r

/-- Frames register their polls before their connection closes, and under ids that no frame at work
has, and no cancellation is dropped, for want of a local worker, before its poll has been sent. -/
def Node.Orderly (s : Node n ι Img Sql Row) (m : SessionMove n ι Img Sql × NodeEnv n ι) : Prop :=
  match m.1 with
  | .poll call => call.conn ∉ s.closed ∧ ∀ r ∈ s.running, ∀ object, ¬
      Asks s.calls r object call.conn call.frame
  | .send i => ∀ c, s.cancels[i]? = some c → s.reaches m.2 (m.2.owner c.object) = true ∨
      ∀ r ∈ c.meant, r ∉ s.opening
  | _ => True

/-- All cancellations of the connection's polls have been handled, or dropped. -/
def Node.Settled (s : Node n ι Img Sql Row) (conn : Nat) : Prop :=
  (∀ c ∈ s.cancels, c.conn ≠ conn) ∧
    ∀ w c, .cancelPoll c ∈ (s.workers w).mailbox → c.conn ≠ conn

/-- No poll of a connection that has closed is parked once all its cancellations have been handled,
but where another worker owned the object when the poll was cancelled. -/
def Node.ClosesQuietly (s : Node n ι Img Sql Row) : Prop :=
  ∀ conn ∈ s.closed, s.Settled conn → ∀ w, ∀ q ∈ (s.workers w).worker.polls, q.2.conn = conn →
    ∃ v ≠ w, (q.2.resp, v) ∈ s.addressed

omit [LinearOrder ι] in
theorem Node.Booked.closesQuietly {s : Node n ι Img Sql Row} (hs : s.Booked) (hsound : s.Sound)
    (hcomplete : s.CancelsComplete) : s.ClosesQuietly := by
  rintro conn hclosed ⟨hunsent, hsettled⟩ w q hq rfl
  have hasks := (hsound.workers w).parked q hq
  have hparks : (s.workers w).parks q.2.resp = true := Hosted.parks_iff.mpr ⟨q, hq, rfl⟩
  have hpending : s.Pending q.2.resp := .inr ⟨w, .inr hparks⟩
  have hsame {c : Cancel ι} (hfits : c.Fits s.calls) (hr : q.2.resp ∈ c.meant) :
      c.conn = q.2.conn := ((hfits _ hr).unique hasks).2.1
  rcases hs.sought _ hpending with hsought | ⟨object, conn, frame, hlisted, hlookup⟩
  · cases hsought with
    | unsent c hc hr => exact absurd (hsame (hsound.cancels c hc) hr) (hunsent c hc)
    | sent v c hc hr => exact absurd (hsame ((hsound.workers v).cancels c hc) hr) (hsettled v c hc)
    | handled hr => exact absurd hpending (hcomplete _ hr)
    | astray v hr hpast =>
      refine ⟨v, ?_, hr⟩
      rintro rfl
      rcases hpast with ⟨-, hnot⟩ | ⟨-, hnone⟩
      · exact hnot (.inr hparks)
      · rw [hnone] at hq
        cases hq
  · obtain ⟨-, rfl, -⟩ := hlisted.unique hasks
    rw [hs.closed _ hclosed] at hlookup
    cases hlookup

theorem mem_eraseIdx_of_ne {α : Type} {l : List α} {i : Nat} {a b : α} (hb : l[i]? = some b)
    (ha : a ∈ l) (hne : a ≠ b) : a ∈ l.eraseIdx i := by
  obtain ⟨j, hlt, hj⟩ := List.mem_iff_getElem.mp ha
  refine List.mem_eraseIdx_iff_getElem.mpr ⟨j, hlt, ?_, hj⟩
  rintro rfl
  rw [List.getElem?_eq_getElem hlt, hj] at hb
  exact hne (Option.some.inj hb)

/-- What becomes of a worker: it comes by no call but those that are to be sent, by no cancellation
but those addressed to it, and loses none that it has not handled. -/
structure Node.Keeps (s : Node n ι Img Sql Row) (w : Fin n) (cancelled : List Nat)
    (h : Hosted ι Img Sql Row) : Prop where
  mail : ∀ c, .cancelPoll c ∈ h.mailbox →
    .cancelPoll c ∈ (s.workers w).mailbox ∨ ∀ r ∈ c.meant, (r, w) ∈ s.addressed
  has : ∀ r, h.Has r → (s.workers w).Has r ∨ r ∈ s.opening
  idle : s.spawned w = false → h.mailbox = [] ∧ ∀ r, ¬ h.Has r
  seeks : ∀ c, .cancelPoll c ∈ (s.workers w).mailbox →
    .cancelPoll c ∈ h.mailbox ∨ h.Gone ∨ ∀ r ∈ c.meant, r ∈ cancelled
  gone : (s.workers w).Gone → h.Gone

omit [LinearOrder ι] in
theorem Node.Booked.keeps {s : Node n ι Img Sql Row} (hs : s.Booked) {cancelled : List Nat}
    (hk : (s.workers w).Keeps cancelled h) : s.Keeps w cancelled h where
  mail c hc := .inl (hk.mail _ hc)
  has r hr := .inl (hk.has r hr)
  idle hw := by
    obtain ⟨hmail, hnone⟩ := hs.spawned w hw
    refine ⟨List.eq_nil_iff_forall_not_mem.mpr fun msg hmsg => ?_,
      fun r hr => hnone r (hk.has r hr)⟩
    have hin := hk.mail msg hmsg
    rw [hmail] at hin
    cases hin
  seeks := hk.seeks
  gone := hk.gone

omit [LinearOrder ι] in
/-- A step of a worker. -/
theorem Node.Booked.update {s : Node n ι Img Sql Row} (hs : s.Booked) {cancelled : List Nat}
    (hk : s.Keeps w cancelled h) (hold : ∀ r ∈ s.cancelled, r ∈ cancelled) :
    Node.Booked { s.update w h with cancelled } := by
  have hpending {r : Nat} (hr : r ∈ s.opening ∨ ∃ v, ((s.update w h).workers v).Has r) :
      s.Pending r := by
    rcases hr with hopening | ⟨v, hv⟩
    · exact .inl hopening
    · by_cases hvw : v = w
      · subst hvw
        rw [Node.update_self] at hv
        exact (hk.has r hv).elim (fun hhas => .inr ⟨v, hhas⟩) .inl
      · rw [Node.update_of_ne s hvw] at hv
        exact .inr ⟨v, hv⟩
  constructor
  case running => exact fun r hr => hs.running r (hpending hr)
  case made => exact hs.made
  case apart => exact hs.apart
  case closed => exact hs.closed
  case sent =>
    intro v c hc r hr
    change .cancelPoll c ∈ ((s.update w h).workers v).mailbox at hc
    by_cases hv : v = w
    · subst hv
      rw [Node.update_self] at hc
      exact (hk.mail c hc).elim (fun hin => hs.sent v c hin r hr) fun haddressed => haddressed r hr
    · rw [Node.update_of_ne s hv] at hc
      exact hs.sent v c hc r hr
  case spawned =>
    intro v hv
    change ((s.update w h).workers v).mailbox = [] ∧ ∀ r, ¬ ((s.update w h).workers v).Has r
    by_cases hvw : v = w
    · subst hvw
      rw [Node.update_self]
      exact hk.idle hv
    · rw [Node.update_of_ne s hvw]
      exact hs.spawned v hv
  case sought =>
    intro r hr
    refine (hs.sought r (hpending hr)).imp_left fun hsought => ?_
    cases hsought with
    | unsent c hc hmeant => exact .unsent c hc hmeant
    | handled hdone => exact .handled (hold r hdone)
    | sent v c hc hmeant =>
      by_cases hv : v = w
      · subst hv
        rcases hk.seeks c hc with hkept | hgone | hhandled
        · refine .sent v c ?_ hmeant
          change .cancelPoll c ∈ ((s.update v h).workers v).mailbox
          rwa [Node.update_self]
        · refine .astray v (hs.sent v c hc r hmeant) (.inr ?_)
          change ((s.update v h).workers v).Gone
          rwa [Node.update_self]
        · exact .handled (hhandled r hmeant)
      · refine .sent v c ?_ hmeant
        change .cancelPoll c ∈ ((s.update w h).workers v).mailbox
        rwa [Node.update_of_ne s hv]
    | astray v haddressed hpast =>
      refine .astray v haddressed ?_
      change (r ∉ s.opening ∧ ¬ ((s.update w h).workers v).Has r) ∨
        ((s.update w h).workers v).Gone
      by_cases hv : v = w
      · subst hv
        rw [Node.update_self]
        refine hpast.imp (fun hnot => ⟨hnot.1, fun hhas => ?_⟩) hk.gone
        exact (hk.has r hhas).elim hnot.2 hnot.1
      · rwa [Node.update_of_ne s hv]

theorem Node.Booked.handle {s : Node n ι Img Sql Row} (hs : s.Booked) {e : NodeEnv n ι}
    (txn : Nat) : (s.handle site e w txn).Booked := by
  unfold Node.handle
  dsimp only
  split_ifs with halive
  · split
    · rename_i c rest hmail
      refine hs.update (hs.keeps (Hosted.keeps_receive halive fun c' rest' hmail' r hr => ?_))
        fun r hr => List.mem_append_left _ hr
      obtain ⟨hc, -⟩ := List.cons.inj (hmail.symm.trans hmail')
      cases hc
      exact List.mem_append_right _ hr
    · rename_i hnot
      exact hs.update (hs.keeps (Hosted.keeps_receive halive
        fun c rest hmail => absurd hmail (hnot c rest))) fun _ => id
  · exact hs

theorem Node.Booked.run {s : Node n ι Img Sql Row} (hs : s.Booked) (hsound : s.Sound)
    {e : NodeEnv n ι} (i : Nat) : (s.run site e w i).Booked := by
  unfold Node.run
  dsimp only
  split
  · exact hs
  · rename_i t ht
    split_ifs with halive
    · exact hs.update (hs.keeps (Hosted.keeps_run ht (hsound.workers w) halive)) fun _ => id
    · exact hs

omit [LinearOrder ι] in
theorem Node.Booked.giveUp {s : Node n ι Img Sql Row} (hs : s.Booked) (i : Nat) :
    (s.giveUp w i).Booked :=
  hs.update (hs.keeps (Hosted.keeps_giveUp i)) fun _ => id

theorem Node.Booked.work {s : Node n ι Img Sql Row} (hs : s.Booked) {e : NodeEnv n ι}
    (m : Move ι Img Sql) : (s.work site e w m).Booked := by
  unfold Node.work
  split
  · rename_i t
    split_ifs with ht
    · exact hs
    · have hfollows : (s.workers w).Follows s.calls ((s.workers w).step site e.env (.run t)) :=
        Hosted.follows_step_txn (Option.not_isSome_iff_eq_none.mp ht)
      exact hs.update (hs.keeps (Hosted.keeps_step hfollows)) fun _ => id
  · exact hs
  · rename_i hrun _
    have hfollows : (s.workers w).Follows s.calls ((s.workers w).step site e.env m) :=
      Hosted.follows_step hrun
    exact hs.update (hs.keeps (Hosted.keeps_step hfollows)) fun _ => id

section

omit [LinearOrder ι]

theorem Node.Booked.leave {s : Node n ι Img Sql Row} (hs : s.Booked) : (s.leave w).Booked := by
  unfold Node.leave
  dsimp only
  split_ifs with halive
  · exact hs
  · exact hs.update (hs.keeps (Hosted.keeps_leave (Bool.eq_false_iff.mpr halive))) fun _ => id

theorem Asks.of_append {more : List (Call ι Sql)} {object : ι} {conn frame : Nat}
    (h : Asks (calls ++ more) r object conn frame) (hr : r < calls.length) :
    Asks calls r object conn frame := by
  obtain ⟨call, hcall, hkey⟩ := h
  exact ⟨call, by rwa [List.getElem?_append_left hr] at hcall, hkey⟩

theorem asks_last {call : Call ι Sql} {object : ι} {conn frame : Nat}
    (h : Asks (calls ++ [call]) calls.length object conn frame) :
    call.object = object ∧ call.conn = conn ∧ call.frame = frame := by
  obtain ⟨call', hcall', hkey⟩ := h
  rw [List.getElem?_append_right (le_refl _), Nat.sub_self] at hcall'
  cases hcall'
  exact hkey

/-- A frame registers its poll. -/
theorem Node.Booked.poll {s : Node n ι Img Sql Row} (hs : s.Booked) {call : Call ι Sql}
    (hopen : call.conn ∉ s.closed)
    (hown : ∀ r ∈ s.running, ∀ object, ¬ Asks s.calls r object call.conn call.frame) :
    (s.poll call).Booked := by
  have hlast : Asks (s.calls ++ [call]) s.calls.length call.object call.conn call.frame := by
    refine ⟨call, ?_, rfl, rfl, rfl⟩
    rw [List.getElem?_append_right (le_refl _), Nat.sub_self]
    rfl
  have hpending {r : Nat} (hr : (s.poll call).Pending r) : s.Pending r ∨ r = s.calls.length := by
    rcases hr with hopening | hworkers
    · rcases List.mem_append.mp hopening with hold | hnew
      · exact .inl (.inl hold)
      · exact .inr (List.mem_singleton.mp hnew)
    · exact .inl (.inr hworkers)
  have helsewhere {conn : Nat} (hconn : conn ≠ call.conn) :
      (s.poll call).outstanding conn = s.outstanding conn := Function.update_of_ne hconn _ _
  have hhere : (s.poll call).outstanding call.conn =
      (s.outstanding call.conn).insert call.frame call.object := Function.update_self _ _ _
  constructor
  case running =>
    intro r hr
    rcases hpending hr with hold | rfl
    · exact List.mem_append_left _ (hs.running r hold)
    · exact List.mem_append_right _ List.mem_cons_self
  case made =>
    intro r hr
    change r < (s.calls ++ [call]).length
    rw [List.length_append, List.length_singleton]
    rcases List.mem_append.mp hr with hold | hnew
    · have hlt := hs.made r hold
      omega
    · rw [List.mem_singleton.mp hnew]
      exact Nat.lt_succ_self _
  case apart =>
    -- a new call has a key that no other frame at work has
    have hfresh {r : Nat} {object object' : ι} {conn frame : Nat} (hr : r ∈ s.running)
        (hasks : Asks (s.calls ++ [call]) r object conn frame)
        (hnew : Asks (s.calls ++ [call]) s.calls.length object' conn frame) : False := by
      obtain ⟨-, rfl, rfl⟩ := asks_last hnew
      exact hown r hr object (hasks.of_append (hs.made r hr))
    intro r hr r' hr' object object' conn frame hasks hasks'
    rcases List.mem_append.mp hr with hold | hnew
    · rcases List.mem_append.mp hr' with hold' | hnew'
      · exact hs.apart r hold r' hold' object object' conn frame
          (hasks.of_append (hs.made r hold)) (hasks'.of_append (hs.made r' hold'))
      · rw [List.mem_singleton.mp hnew'] at hasks'
        exact (hfresh hold hasks hasks').elim
    · rw [List.mem_singleton.mp hnew] at hasks ⊢
      rcases List.mem_append.mp hr' with hold' | hnew'
      · exact (hfresh hold' hasks' hasks).elim
      · exact (List.mem_singleton.mp hnew').symm
  case closed =>
    intro conn hconn
    rw [helsewhere fun heq => hopen (heq ▸ hconn)]
    exact hs.closed conn hconn
  case sent => exact hs.sent
  case spawned => exact hs.spawned
  case sought =>
    intro r hr
    rcases hpending hr with hold | rfl
    · have hrunning := hs.running r hold
      rcases hs.sought r hold with hsought | ⟨object, conn, frame, hasks, hlookup⟩
      · left
        cases hsought with
        | unsent c hc hmeant => exact .unsent c hc hmeant
        | sent w c hc hmeant => exact .sent w c hc hmeant
        | handled hdone => exact .handled hdone
        | astray w haddressed hpast =>
          refine .astray w haddressed (hpast.imp_left fun hnot => ⟨fun hin => ?_, hnot.2⟩)
          rcases List.mem_append.mp hin with hopening | hnew
          · exact hnot.1 hopening
          · have hlt := hs.made r hrunning
            rw [List.mem_singleton.mp hnew] at hlt
            omega
      · refine .inr ⟨object, conn, frame, hasks.append [call], ?_⟩
        by_cases hconn : conn = call.conn
        · subst hconn
          have hframe : frame ≠ call.frame := by
            rintro rfl
            exact hown r hrunning object hasks
          rwa [hhere, AList.lookup_insert_ne hframe]
        · rwa [helsewhere hconn]
    · refine .inr ⟨call.object, call.conn, call.frame, hlast, ?_⟩
      rw [hhere, AList.lookup_insert]

/-- A message is sent to a worker, which may be spawned for it. -/
theorem Node.Booked.post {s : Node n ι Img Sql Row} (hs : s.Booked) {e : NodeEnv n ι} {object : ι}
    {msg : Msg ι} (hsubmit : ∀ r, msg = .submit r → r ∈ s.opening)
    (hcancel : ∀ c, msg = .cancelPoll c → ∀ r ∈ c.meant, (r, e.owner object) ∈ s.addressed) :
    (s.post e object msg).Booked := by
  unfold Node.post
  dsimp only
  split_ifs with hreaches
  · generalize e.owner object = w at hcancel ⊢
    have hspawned : Node.Booked { s with spawned := Function.update s.spawned w true } := by
      refine ⟨hs.running, hs.made, hs.apart, hs.closed, hs.sent, fun v hv => ?_, fun r hr => ?_⟩
      · have hv : Function.update s.spawned w true v = false := hv
        have hvw : v ≠ w := by
          rintro rfl
          rw [Function.update_self] at hv
          cases hv
        rw [Function.update_of_ne hvw] at hv
        exact hs.spawned v hv
      · refine (hs.sought r hr).imp_left fun hsought => ?_
        cases hsought with
        | unsent c hc hmeant => exact .unsent c hc hmeant
        | sent v c hc hmeant => exact .sent v c hc hmeant
        | handled hdone => exact .handled hdone
        | astray v haddressed hpast => exact .astray v haddressed hpast
    refine hspawned.update ⟨fun c hc => ?_, fun r hr => ?_, fun hnot => ?_, fun c hc => ?_, id⟩
      fun _ => id
    · refine (List.mem_append.mp hc).imp_right fun hnew => ?_
      exact hcancel c (List.mem_singleton.mp hnew).symm
    · exact (Hosted.has_post.mp hr).imp_right (hsubmit r)
    · have htrue : Function.update s.spawned w true w = false := hnot
      rw [Function.update_self] at htrue
      cases htrue
    · exact .inl (List.mem_append_left _ hc)
  · exact hs

/-- What has been sent, or refused, is no longer to be sent. -/
theorem Node.Booked.opened {s : Node n ι Img Sql Row} (hs : s.Booked) {opening : List Nat}
    (hfewer : ∀ r ∈ opening, r ∈ s.opening) : Node.Booked { s with opening } := by
  have hpending {r : Nat} (hr : r ∈ opening ∨ ∃ v, (s.workers v).Has r) : s.Pending r :=
    hr.imp_left (hfewer r)
  refine ⟨fun r hr => hs.running r (hpending hr), hs.made, hs.apart, hs.closed, hs.sent,
    hs.spawned, fun r hr => (hs.sought r (hpending hr)).imp_left fun hsought => ?_⟩
  cases hsought with
  | unsent c hc hmeant => exact .unsent c hc hmeant
  | sent v c hc hmeant => exact .sent v c hc hmeant
  | handled hdone => exact .handled hdone
  | astray v haddressed hpast =>
    exact .astray v haddressed
      (hpast.imp_left fun hnot => ⟨fun hin => hnot.1 (hfewer r hin), hnot.2⟩)

theorem Node.post_opening (s : Node n ι Img Sql Row) (opening : List Nat) (e : NodeEnv n ι)
    (object : ι) (msg : Msg ι) :
    Node.post { s with opening } e object msg = { s.post e object msg with opening } := by
  unfold Node.post Node.reaches
  dsimp only
  split_ifs <;> rfl

theorem Node.post_cancels (s : Node n ι Img Sql Row) (cancels : List (Cancel ι))
    (e : NodeEnv n ι) (object : ι) (msg : Msg ι) :
    Node.post { s with cancels } e object msg = { s.post e object msg with cancels } := by
  unfold Node.post Node.reaches
  dsimp only
  split_ifs <;> rfl

theorem Node.same_post (s : Node n ι Img Sql Row) (e : NodeEnv n ι) (object : ι) (msg : Msg ι) :
    (s.post e object msg).opening = s.opening ∧ (s.post e object msg).cancels = s.cancels := by
  unfold Node.post
  dsimp only
  split_ifs <;> exact ⟨rfl, rfl⟩

theorem Node.mem_post {s : Node n ι Img Sql Row} {e : NodeEnv n ι} {object : ι} {msg : Msg ι}
    (h : s.reaches e (e.owner object) = true) :
    msg ∈ ((s.post e object msg).workers (e.owner object)).mailbox := by
  unfold Node.post
  dsimp only
  rw [if_pos h]
  change msg ∈ ((s.update (e.owner object) _).workers (e.owner object)).mailbox
  rw [Node.update_self]
  exact List.mem_append_right _ List.mem_cons_self

/-- A poll is sent to the worker that owns its object, or refused. -/
theorem Node.Booked.submit {s : Node n ι Img Sql Row} (hs : s.Booked) {e : NodeEnv n ι}
    (i : Nat) : (s.submit e i).Booked := by
  unfold Node.submit
  split
  · exact hs
  · rename_i resp hresp
    split
    · exact hs
    · rename_i call hcall
      have hposted : (s.post e call.object (.submit resp)).Booked := by
        refine hs.post (fun r hr => ?_) nofun
        cases hr
        exact List.mem_of_getElem? hresp
      rw [Node.post_opening s (s.opening.eraseIdx i)]
      refine hposted.opened fun r hr => ?_
      rw [(s.same_post e call.object (.submit resp)).1]
      exact List.mem_of_mem_eraseIdx hr

/-- A frame's poll is answered: it is pending no more. -/
theorem Node.Booked.reply {s : Node n ι Img Sql Row} (hs : s.Booked) (i : Nat) :
    (s.reply i).Booked := by
  unfold Node.reply
  split
  · exact hs
  · rename_i resp hresp
    split_ifs with hawaited
    · exact hs
    split
    · exact hs
    · rename_i call hcall
      have hne {r : Nat} (hr : s.Pending r) : r ≠ resp := by
        rintro rfl
        exact hawaited (.inl hr)
      have hresp' : resp ∈ s.running := List.mem_of_getElem? hresp
      have hkey : Asks s.calls resp call.object call.conn call.frame := ⟨call, hcall, rfl, rfl, rfl⟩
      have hfewer {r : Nat} (hr : r ∈ s.running.eraseIdx i) : r ∈ s.running :=
        List.mem_of_mem_eraseIdx hr
      refine ⟨fun r hr => ?_, fun r hr => hs.made r (hfewer hr),
        fun r hr r' hr' => hs.apart r (hfewer hr) r' (hfewer hr'), fun conn hconn => ?_, hs.sent,
        hs.spawned, fun r hr => ?_⟩
      · exact mem_eraseIdx_of_ne hresp (hs.running r hr) (hne hr)
      · change Function.update s.outstanding call.conn _ conn = ∅
        by_cases hsame : conn = call.conn
        · subst hsame
          rw [Function.update_self, hs.closed _ hconn]
          exact AList.ext rfl
        · rw [Function.update_of_ne hsame]
          exact hs.closed conn hconn
      · rcases hs.sought r hr with hsought | ⟨object, conn, frame, hasks, hlookup⟩
        · left
          cases hsought with
          | unsent c hc hmeant => exact .unsent c hc hmeant
          | sent v c hc hmeant => exact .sent v c hc hmeant
          | handled hdone => exact .handled hdone
          | astray v haddressed hpast => exact .astray v haddressed hpast
        · refine .inr ⟨object, conn, frame, hasks, ?_⟩
          change (Function.update s.outstanding call.conn
            ((s.outstanding call.conn).erase call.frame) conn).lookup frame = some object
          by_cases hsame : conn = call.conn
          · subst hsame
            have hframe : frame ≠ call.frame := by
              rintro rfl
              exact hne hr (hs.apart r (hs.running r hr) resp hresp' _ _ _ _ hasks hkey)
            rwa [Function.update_self, AList.lookup_erase_ne hframe]
          · rwa [Function.update_of_ne hsame]

end

/-- What is no longer outstanding has been cancelled. -/
theorem Node.Booked.cancels {s : Node n ι Img Sql Row} (hs : s.Booked)
    {outstanding : Nat → AList fun _ : Nat => ι} {more : List (Cancel ι)} {closed : List Nat}
    (hclosed : ∀ conn ∈ closed, outstanding conn = ∅)
    (hlisted : ∀ conn frame object, (s.outstanding conn).lookup frame = some object →
      (outstanding conn).lookup frame = some object ∨
        ⟨object, conn, frame, s.meant object conn frame⟩ ∈ more) :
    Node.Booked { s with outstanding, cancels := s.cancels ++ more, closed } := by
  refine ⟨hs.running, hs.made, hs.apart, hclosed, hs.sent, hs.spawned, fun r hr => ?_⟩
  rcases hs.sought r hr with hsought | ⟨object, conn, frame, hasks, hlookup⟩
  · left
    cases hsought with
    | unsent c hc hmeant => exact .unsent c (List.mem_append_left _ hc) hmeant
    | sent v c hc hmeant => exact .sent v c hc hmeant
    | handled hdone => exact .handled hdone
    | astray v haddressed hpast => exact .astray v haddressed hpast
  · rcases hlisted conn frame object hlookup with hstill | hin
    · exact .inr ⟨object, conn, frame, hasks, hstill⟩
    · left
      refine .unsent _ (List.mem_append_right _ hin) ?_
      obtain ⟨call, hcall, hkey⟩ := hasks
      refine List.mem_filter.mpr ⟨hs.running r hr, ?_⟩
      rw [hcall]
      exact decide_eq_true hkey

theorem Node.Booked.cancel {s : Node n ι Img Sql Row} (hs : s.Booked) (conn frame : Nat) :
    (s.cancel conn frame).Booked := by
  unfold Node.cancel
  split
  · exact hs
  · rename_i object hobject
    refine hs.cancels (fun conn' hconn' => ?_) fun conn' frame' object' hlookup => ?_
    · by_cases hsame : conn' = conn
      · subst hsame
        rw [hs.closed _ hconn'] at hobject
        cases hobject
      · rw [Function.update_of_ne hsame]
        exact hs.closed conn' hconn'
    · by_cases hsame : conn' = conn
      · subst hsame
        by_cases hframe : frame' = frame
        · subst hframe
          rw [hobject] at hlookup
          cases hlookup
          exact .inr List.mem_cons_self
        · left
          rwa [Function.update_self, AList.lookup_erase_ne hframe]
      · left
        rwa [Function.update_of_ne hsame]

theorem Node.Booked.close {s : Node n ι Img Sql Row} (hs : s.Booked) (conn : Nat) :
    (s.close conn).Booked := by
  refine hs.cancels (fun conn' hconn' => ?_) fun conn' frame object hlookup => ?_
  · by_cases hsame : conn' = conn
    · rw [hsame, Function.update_self]
    · rw [Function.update_of_ne hsame]
      exact hs.closed conn' (List.mem_of_ne_of_mem hsame hconn')
  · by_cases hsame : conn' = conn
    · subst hsame
      exact .inr (List.mem_map.mpr ⟨⟨frame, object⟩, AList.mem_lookup_iff.mp hlookup, rfl⟩)
    · left
      rwa [Function.update_of_ne hsame]

omit [LinearOrder ι] in
/-- A cancellation that is no longer to be sent is in a channel, or its calls are past it. -/
theorem Node.Booked.unqueued {s : Node n ι Img Sql Row} (hs : s.Booked) {c : Cancel ι}
    {cancels : List (Cancel ι)} (hothers : ∀ c' ∈ s.cancels, c' ≠ c → c' ∈ cancels) {w : Fin n}
    (hsent : .cancelPoll c ∈ (s.workers w).mailbox ∨
      ∀ r ∈ c.meant, (r, w) ∈ s.addressed ∧ s.Past w r) : Node.Booked { s with cancels } := by
  refine ⟨hs.running, hs.made, hs.apart, hs.closed, hs.sent, hs.spawned, fun r hr => ?_⟩
  refine (hs.sought r hr).imp_left fun hsought => ?_
  cases hsought with
  | unsent c' hc' hmeant =>
    by_cases heq : c' = c
    · subst heq
      rcases hsent with hin | hpast
      · exact .sent w c' hin hmeant
      · exact .astray w (hpast r hmeant).1 (hpast r hmeant).2
    · exact .unsent c' (hothers c' hc' heq) hmeant
  | sent v c' hc' hmeant => exact .sent v c' hc' hmeant
  | handled hdone => exact .handled hdone
  | astray v haddressed hpast => exact .astray v haddressed hpast

omit [LinearOrder ι] in
/-- A cancellation is sent, or dropped. -/
theorem Node.Booked.send {s : Node n ι Img Sql Row} (hs : s.Booked) {e : NodeEnv n ι} {i : Nat}
    (hgood : s.Orderly (.send i, e)) : (s.send e i).Booked := by
  unfold Node.send
  split
  · exact hs
  · rename_i c hc
    have hmore {p : Nat × Fin n} (hp : p ∈ s.addressed) : p ∈ s.addressed ++
        c.meant.map fun resp => (resp, e.owner c.object) := List.mem_append_left _ hp
    have hnew {r : Nat} (hr : r ∈ c.meant) : (r, e.owner c.object) ∈ s.addressed ++
        c.meant.map fun resp => (resp, e.owner c.object) :=
      List.mem_append_right _ (List.mem_map_of_mem hr)
    generalize (s.addressed ++ c.meant.map fun resp => (resp, e.owner c.object)) = addressed
      at hmore hnew ⊢
    have hnoted : Node.Booked { s with addressed } := by
      refine ⟨hs.running, hs.made, hs.apart, hs.closed,
        fun w c hc r hr => hmore (hs.sent w c hc r hr), hs.spawned, fun r hr => ?_⟩
      refine (hs.sought r hr).imp_left fun hsought => ?_
      cases hsought with
      | unsent c hc hmeant => exact .unsent c hc hmeant
      | sent v c hc hmeant => exact .sent v c hc hmeant
      | handled hdone => exact .handled hdone
      | astray v haddressed hpast => exact .astray v (hmore haddressed) hpast
    have hposted : (Node.post { s with addressed } e c.object (.cancelPoll c)).Booked := by
      refine hnoted.post nofun fun c' hc' r hr => ?_
      cases hc'
      exact hnew hr
    rw [Node.post_cancels { s with addressed } (s.cancels.eraseIdx i)]
    refine hposted.unqueued (c := c) (w := e.owner c.object) (fun c' hc' hne => ?_) ?_
    · rw [(Node.same_post { s with addressed } e c.object (.cancelPoll c)).2] at hc'
      exact mem_eraseIdx_of_ne hc hc' hne
    · by_cases hreaches : s.reaches e (e.owner c.object) = true
      · exact .inl (Node.mem_post hreaches)
      · right
        have hkept : Node.post { s with addressed } e c.object (.cancelPoll c) =
            { s with addressed } := if_neg hreaches
        rw [hkept]
        refine fun r hr => ⟨hnew hr, .inl ⟨(hgood c hc).resolve_left hreaches r hr, ?_⟩⟩
        refine (hs.spawned _ ?_).2 r
        cases hspawned : s.spawned (e.owner c.object) with
        | false => rfl
        | true => exact absurd (by simp [Node.reaches, hspawned]) hreaches

theorem Node.Booked.step {s : Node n ι Img Sql Row} (hs : s.Booked) (hsound : s.Sound)
    {m : SessionMove n ι Img Sql × NodeEnv n ι} (hgood : s.Orderly m) :
    (s.step site m).Booked := by
  obtain ⟨move, e⟩ := m
  cases move with
  | poll call => exact hs.poll hgood.1 hgood.2
  | submit i => exact hs.submit i
  | reply i => exact hs.reply i
  | cancel conn frame => exact hs.cancel conn frame
  | close conn => exact hs.close conn
  | send i => exact hs.send hgood
  | handle w txn => exact hs.handle txn
  | run w i => exact hs.run hsound i
  | giveUp w i => exact hs.giveUp i
  | work w m => exact hs.work m
  | leave w => exact hs.leave

omit [LinearOrder ι] in
theorem Node.booked_boot (shelf : Fin n → Shelf ι Img) :
    (Node.boot shelf : Node n ι Img Sql Row).Booked := by
  have hnone (r : Nat) : ¬ (Node.boot shelf : Node n ι Img Sql Row).Pending r := by
    rintro (hopening | ⟨w, hcoming | hparks⟩)
    · cases hopening
    · cases hcoming
    · cases hparks
  exact ⟨fun r hr => absurd hr (hnone r), nofun, nofun, nofun, nofun,
    fun w _ => ⟨rfl, fun r hr => hnone r (.inr ⟨w, hr⟩)⟩, fun r hr => absurd hr (hnone r)⟩

/-- A poll that a handled cancellation was meant for is answered, or has fired, and is not parked
again, exactly when each cancellation finds its polls parked with the worker that handles it, or
answered. A connection that closes leaves no poll parked if its frames keep order besides. -/
theorem cancels_complete (site : Site ι Img Sql Row) (shelf : Fin n → Shelf ι Img)
    (moves : List (SessionMove n ι Img Sql × NodeEnv n ι)) :
    (Runs.Throughout (Node.step site) Node.CancelsComplete (Node.boot shelf) moves ↔
      Runs.Guarded (Node.step site) Node.CancelsParked (Node.boot shelf) moves) ∧
    (Runs.Guarded (Node.step site) (fun s m => s.CancelsParked m ∧ s.Orderly m) (Node.boot shelf)
      moves → Runs.Throughout (Node.step site) Node.ClosesQuietly (Node.boot shelf) moves) := by
  refine ⟨Node.throughout_complete_iff site shelf moves, fun h => ?_⟩
  exact h.throughout (I := fun s => s.Kept ∧ s.Booked)
    (fun _ m hs hgood => ⟨hs.1.step m hgood.1, hs.2.step hs.1.1 hgood.2⟩)
    (fun _ hs => hs.2.closesQuietly hs.1.1 hs.1.2)
    ⟨Node.kept_boot shelf, Node.booked_boot shelf⟩

section Demo

/-- A poll has parked on an object when its connection closes, and its cancellation is handled. -/
def closed : List (SessionMove 1 Nat Nat Bool × NodeEnv 1 Nat) :=
  let e : NodeEnv 1 Nat := { owner := fun _ => 0, env := fair }
  [(.work 0 (.startFetch 0), e), (.work 0 (.activated 0 true), e),
    (.poll ⟨0, 0, 0, false, true, none⟩, e), (.submit 0, e), (.handle 0 0, e), (.run 0 0, e),
    (.close 0, e), (.send 0, e), (.handle 0 0, e)]

/-- It is parked no more. -/
theorem cancels_complete_closed :
    Runs.Throughout (Node.step (station false)) Node.ClosesQuietly
      (Node.boot fun _ => ⟨fun _ => [], fun _ => 0, []⟩) closed := by
  refine (cancels_complete (station false) _ closed).2 ?_
  refine ⟨⟨trivial, trivial⟩, ⟨trivial, trivial⟩, ⟨trivial, ?_⟩, ⟨trivial, trivial⟩,
    ⟨?_, trivial⟩, ⟨trivial, trivial⟩, ⟨trivial, trivial⟩, ⟨trivial, ?_⟩, ⟨?_, trivial⟩, trivial⟩
  · exact ⟨List.not_mem_nil, fun r hr => absurd hr List.not_mem_nil⟩
  · intro _ c rest hmail
    cases hmail
  · exact fun c _ => .inl rfl
  · -- the poll is parked with the one worker
    intro _ c rest hmail r hr
    cases hmail
    obtain rfl := List.mem_singleton.mp hr
    rintro (hopening | ⟨v, hcoming | ⟨hne, -⟩⟩)
    · cases hopening
    · obtain rfl := Subsingleton.elim v 0
      cases hcoming
    · exact hne (Subsingleton.elim v 0)

/-- A poll is asked of an object that is not live, its connection closes while the object
activates, and then the poll has its turn. -/
def closing : List (SessionMove 1 Nat Nat Bool × NodeEnv 1 Nat) :=
  let e : NodeEnv 1 Nat := { owner := fun _ => 0, env := fair }
  [(.poll ⟨0, 0, 0, false, true, none⟩, e), (.submit 0, e), (.handle 0 0, e),
    (.work 0 (.startFetch 0), e), (.close 0, e), (.send 0, e), (.handle 0 0, e),
    (.work 0 (.activated 0 true), e), (.run 0 0, e)]

/-- The poll parks after its cancellation has been handled, and nothing is left to cancel it. -/
theorem poll_parks_cancelled :
    ¬ Runs.Throughout (Node.step (station false))
      (fun s : Node 1 Nat Nat Bool Nat => ∀ r ∈ s.cancelled, ∀ w, ¬ (s.workers w).parks r = true)
      (Node.boot fun _ => ⟨fun _ => [], fun _ => 0, []⟩) closing := by
  intro h
  have hcancelled : (Runs.run (Node.step (station false))
      (Node.boot fun _ => ⟨fun _ => [], fun _ => 0, []⟩) closing).cancelled = [0] := rfl
  have hparks : ((Runs.run (Node.step (station false))
      (Node.boot fun _ => ⟨fun _ => [], fun _ => 0, []⟩) closing).workers 0).parks 0 = true := rfl
  refine h.last 0 ?_ 0 hparks
  rw [hcancelled]
  exact List.mem_cons_self

end Demo

end Fafo.Polls
