import Fafo.Objlog

/-! The outcome key under faults: what concurrent commits and aborts of a transaction report. -/
namespace Fafo

open Interleave

variable {ι τ β δ N κ : Type} [DecidableEq ι] [DecidableEq τ]

/-- The decision recorded for `txn`, if any. -/
def verdict (w : World (Key ι τ) (Blob τ β δ) N) (txn : τ) : Option Bool :=
  (w.get (.outcome txn)).map isCommitted

/-- A call that decides a transaction. -/
inductive Call (τ : Type) where
  | commit (txn : τ)
  | abort (txn : τ)
  deriving DecidableEq

def Call.prog : Call τ → LogTry ι τ β δ N Bool
  | commit txn => commitTxn txn
  | abort txn => abortTxn txn

abbrev CallConfig (ι τ β δ N κ : Type) :=
  Config (nodeSig (Key ι τ) (Blob τ β δ) N) (World (Key ι τ) (Blob τ β δ) N) κ (Except Error Bool)

/-- Any number of calls, none of which has started. -/
def startCalls (calls : κ → Call τ) (w : World (Key ι τ) (Blob τ β δ) N) :
    CallConfig ι τ β δ N κ :=
  ⟨w, fun i => .start (calls i).prog⟩

/-- What a call may report, given the recorded decision. -/
def Call.Honest (w : World (Key ι τ) (Blob τ β δ) N) : Call τ → Bool → Prop
  | commit txn, b => verdict w txn = some b
  | abort txn, b => verdict w txn = some !b

/-- Every call that has returned `Ok` reported the recorded decision. -/
def Agreement (calls : κ → Call τ) (c : CallConfig ι τ β δ N κ) : Prop :=
  ∀ i b, (c.procs i).prog = .ret (.ok b) → (calls i).Honest c.shared b

/-- A `commit_txn` whose create lost reads the outcome next. That read works, unless the recorded
decision is not a commit anyway. -/
def LostCommitReads (calls : κ → Call τ) (c : CallConfig ι τ β δ N κ) (i : κ) (e : Env) : Prop :=
  match calls i, (c.procs i).prog with
  | .commit txn, .call (NodeOp.store (.get _)) _ =>
    verdict c.shared txn = some true → e.fault = .none
  | _, _ => True

theorem verdict_create {w : World (Key ι τ) (Blob τ β δ) N} {txn x : τ} {b v : Bool}
    (h : verdict w x = some v) :
    verdict (w.effect (.create (.outcome txn) (.verdict b))) x = some v := by
  unfold verdict at *
  rw [World.get_create]
  split
  · next hx => simp_all
  · exact h

theorem verdict_create_self {w : World (Key ι τ) (Blob τ β δ) N} {txn : τ} {b : Bool}
    (h : w.get (.outcome txn) = none) :
    verdict (w.effect (.create (.outcome txn) (.verdict b))) txn = some b := by
  simp [verdict, World.get_create, h, isCommitted]

theorem verdict_ne_none_create (w : World (Key ι τ) (Blob τ β δ) N) (txn : τ) (b : Bool) :
    verdict (w.effect (.create (.outcome txn) (.verdict b))) txn ≠ none := by
  unfold verdict
  rw [World.get_create]
  split <;> simp_all

/-- Recorded decisions stay. -/
def Keeps (w w' : World (Key ι τ) (Blob τ β δ) N) : Prop :=
  ∀ txn v, verdict w txn = some v → verdict w' txn = some v

theorem Call.Honest.keeps {w w' : World (Key ι τ) (Blob τ β δ) N} (hk : Keeps w w')
    {call : Call τ} {b : Bool} (h : call.Honest w b) : call.Honest w' b := by
  cases call <;> exact hk _ _ h

theorem verdict_ne_none_keeps {w w' : World (Key ι τ) (Blob τ β δ) N} (hk : Keeps w w') {txn : τ}
    (h : verdict w txn ≠ none) : verdict w' txn ≠ none := by
  obtain ⟨v, hv⟩ := Option.ne_none_iff_exists'.mp h
  simp [hk txn v hv]

theorem keeps_refl (w : World (Key ι τ) (Blob τ β δ) N) : Keeps w w := fun _ _ h => h

theorem keeps_create (w : World (Key ι τ) (Blob τ β δ) N) (txn : τ) (b : Bool) :
    Keeps w (w.effect (.create (.outcome txn) (.verdict b))) := fun _ _ h => verdict_create h

/-- The rest of a `commit_txn` whose create lost. -/
def lostCommit (txn : τ) : LogTry ι τ β δ N Bool :=
  (committed txn).bind fun c => .ret (.ok c)

/-- The rest of an `abort_txn` whose create lost. -/
def lostAbort (txn : τ) : LogTry ι τ β δ N Bool :=
  (outcome txn).attempt fun v => .ret (.ok (v == some false))

/-- A create that works either records the decision and succeeds, or finds one and goes on. -/
theorem move_commitTxn (w : World (Key ι τ) (Blob τ β δ) N) (txn : τ) (e : Env) :
    (commitTxn txn : LogTry ι τ β δ N Bool).move node e w =
      match e.fault with
      | .none => (if (w.get (.outcome txn)).isNone then .ret (.ok true) else lostCommit txn,
          w.effect (.create (.outcome txn) (.verdict true)))
      | .failed => (.ret (.error .unavailable), w)
      | .lost => (.ret (.error .unavailable),
          w.effect (.create (.outcome txn) (.verdict true))) := by
  obtain ⟨fault, _, _⟩ := e
  cases fault <;> rfl

theorem move_abortTxn (w : World (Key ι τ) (Blob τ β δ) N) (txn : τ) (e : Env) :
    (abortTxn txn : LogTry ι τ β δ N Bool).move node e w =
      match e.fault with
      | .none => (if (w.get (.outcome txn)).isNone then .ret (.ok true) else lostAbort txn,
          w.effect (.create (.outcome txn) (.verdict false)))
      | .failed => (.ret (.error .unavailable), w)
      | .lost => (.ret (.error .unavailable),
          w.effect (.create (.outcome txn) (.verdict false))) := by
  obtain ⟨fault, _, _⟩ := e
  cases fault <;> rfl

/-- A commit that lost reports whether it could read a commit, and swallows a failed read. -/
theorem move_lostCommit (w : World (Key ι τ) (Blob τ β δ) N) (txn : τ) (e : Env) :
    (lostCommit txn : LogTry ι τ β δ N Bool).move node e w =
      (.ret (.ok (e.fault == .none && verdict w txn == some true)), w) := by
  obtain ⟨fault, _, _⟩ := e
  cases fault with
  | none =>
    change (_, w) = (Prog.ret (Except.ok (verdict w txn == some true)), w)
    unfold verdict World.get
    simp only [node, exec, StoreOp.value]
    cases w.blobs.lookup (.outcome txn) with
    | none => rfl
    | some b => cases hb : isCommitted b <;> simp [Prog.bind, hb]
  | failed => rfl
  | lost => rfl

theorem move_lostAbort (w : World (Key ι τ) (Blob τ β δ) N) (txn : τ) (e : Env) :
    (lostAbort txn : LogTry ι τ β δ N Bool).move node e w =
      (if e.fault = .none then .ret (.ok (verdict w txn == some false))
        else .ret (.error .unavailable), w) := by
  obtain ⟨fault, _, _⟩ := e
  cases fault <;> rfl

/-- Where a call stands between two of its operations. -/
inductive Stage (w : World (Key ι τ) (Blob τ β δ) N) : Call τ → LogTry ι τ β δ N Bool → Prop
  | start (call : Call τ) : Stage w call call.prog
  | beatenCommit (txn : τ) (h : verdict w txn ≠ none) : Stage w (.commit txn) (lostCommit txn)
  | beatenAbort (txn : τ) (h : verdict w txn ≠ none) : Stage w (.abort txn) (lostAbort txn)
  | done (call : Call τ) (b : Bool) (h : call.Honest w b) : Stage w call (.ret (.ok b))
  | failed (call : Call τ) (err : Error) : Stage w call (.ret (.error err))

theorem Stage.keeps {w w' : World (Key ι τ) (Blob τ β δ) N} (hk : Keeps w w') {call : Call τ}
    {p : LogTry ι τ β δ N Bool} (h : Stage w call p) : Stage w' call p := by
  cases h with
  | start call => exact .start call
  | beatenCommit txn h => exact .beatenCommit txn (verdict_ne_none_keeps hk h)
  | beatenAbort txn h => exact .beatenAbort txn (verdict_ne_none_keeps hk h)
  | done call b h => exact .done call b (h.keeps hk)
  | failed call err => exact .failed call err

/-- One operation of a call keeps recorded decisions. -/
theorem Stage.move_keeps {w : World (Key ι τ) (Blob τ β δ) N} {call : Call τ}
    {p : LogTry ι τ β δ N Bool} (h : Stage w call p) (e : Env) :
    Keeps w (p.move node e w).2 := by
  cases h with
  | start call =>
    cases call with
    | commit txn =>
      rw [Call.prog, move_commitTxn]
      cases e.fault with
      | none => exact keeps_create w txn true
      | failed => exact keeps_refl w
      | lost => exact keeps_create w txn true
    | abort txn =>
      rw [Call.prog, move_abortTxn]
      cases e.fault with
      | none => exact keeps_create w txn false
      | failed => exact keeps_refl w
      | lost => exact keeps_create w txn false
  | beatenCommit txn => rw [move_lostCommit]; exact keeps_refl w
  | beatenAbort txn => rw [move_lostAbort]; exact keeps_refl w
  | done => exact keeps_refl w
  | failed => exact keeps_refl w

/-- One operation of a call leads to another stage, provided a `commit_txn` that lost its create
gets to read a commit it finds there. -/
theorem Stage.move {w : World (Key ι τ) (Blob τ β δ) N} {call : Call τ}
    {p : LogTry ι τ β δ N Bool} {e : Env} (h : Stage w call p)
    (hread : ∀ txn, call = .commit txn → p = lostCommit txn →
      verdict w txn = some true → e.fault = .none) :
    Stage (p.move node e w).2 call (p.move node e w).1 := by
  cases h with
  | start call =>
    cases call with
    | commit txn =>
      rw [Call.prog, move_commitTxn]
      cases e.fault with
      | none =>
        cases hw : (w.get (.outcome txn)).isNone with
        | true => exact .done _ _ (verdict_create_self (Option.isNone_iff_eq_none.mp hw))
        | false => exact .beatenCommit txn (verdict_ne_none_create w txn true)
      | failed => exact .failed _ _
      | lost => exact .failed _ _
    | abort txn =>
      rw [Call.prog, move_abortTxn]
      cases e.fault with
      | none =>
        cases hw : (w.get (.outcome txn)).isNone with
        | true => exact .done _ _ (verdict_create_self (Option.isNone_iff_eq_none.mp hw))
        | false => exact .beatenAbort txn (verdict_ne_none_create w txn false)
      | failed => exact .failed _ _
      | lost => exact .failed _ _
  | beatenCommit txn hv =>
    rw [move_lostCommit]
    refine .done _ _ ?_
    obtain ⟨b, hb⟩ := Option.ne_none_iff_exists'.mp hv
    cases b with
    | false => simp [Call.Honest, hb]
    | true => simp [Call.Honest, hb, hread txn rfl rfl hb]
  | beatenAbort txn hv =>
    rw [move_lostAbort]
    obtain ⟨b, hb⟩ := Option.ne_none_iff_exists'.mp hv
    split
    · refine .done _ _ ?_
      cases b <;> simp [Call.Honest, hb]
    · exact .failed _ _
  | done call b h => exact .done call b h
  | failed call err => exact .failed call err

/-- Every call is at some stage. -/
def Staged (calls : κ → Call τ) (c : CallConfig ι τ β δ N κ) : Prop :=
  ∀ i, Stage c.shared (calls i) (c.procs i).prog

theorem staged_start (calls : κ → Call τ) (w : World (Key ι τ) (Blob τ β δ) N) :
    Staged calls (startCalls calls w) := fun i => .start (calls i)

theorem staged_agreement {calls : κ → Call τ} {c : CallConfig ι τ β δ N κ}
    (h : Staged calls c) : Agreement calls c := by
  intro i b hp
  have hi := h i
  rw [hp] at hi
  generalize calls i = call at hi ⊢
  generalize hq : (Prog.ret (.ok b) : LogTry ι τ β δ N Bool) = q at hi
  cases hi with
  | start call => cases call <;> cases hq
  | beatenCommit => cases hq
  | beatenAbort => cases hq
  | done _ b' h' => cases hq; exact h'
  | failed => cases hq

variable [DecidableEq κ]

theorem staged_step {calls : κ → Call τ} {c : CallConfig ι τ β δ N κ} {i : κ} {e : Env}
    (h : Staged calls c) (hgood : LostCommitReads calls c i e) :
    Staged calls (c.step node i e) := by
  intro j
  rw [Config.step_shared]
  by_cases hj : j = i
  · subst j
    rw [Config.step_prog]
    refine (h i).move ?_
    intro txn hc hp
    unfold LostCommitReads at hgood
    rw [hc, hp] at hgood
    exact hgood
  · rw [Config.step_procs_ne node c hj]
    exact (h j).keeps ((h i).move_keeps e)

/-- A `commit_txn` that cannot read the commit it lost to reports an abort. -/
theorem agreement_broken {calls : κ → Call τ} {c : CallConfig ι τ β δ N κ} {i : κ} {e : Env}
    (h : Staged calls c) (hbad : ¬ LostCommitReads calls c i e) :
    ¬ Agreement calls (c.step node i e) := by
  intro hagree
  have hi := h i
  unfold LostCommitReads at hbad
  generalize hq : calls i = call at hi hbad
  generalize hp : (c.procs i).prog = p at hi hbad
  cases hi with
  | start call => cases call <;> exact hbad trivial
  | beatenCommit txn hv =>
    change ¬ (verdict c.shared txn = some true → e.fault = .none) at hbad
    push Not at hbad
    have hprog : ((c.step node i e).procs i).prog = .ret (.ok false) := by
      rw [Config.step_prog, hp, move_lostCommit]
      simp [hbad.2]
    have hrep := hagree i false hprog
    rw [hq, Config.step_shared, hp, move_lostCommit] at hrep
    simp [Call.Honest, hbad.1] at hrep
  | beatenAbort => exact hbad trivial
  | done => cases call <;> exact hbad trivial
  | failed => cases call <;> exact hbad trivial

/-- Every recorded decision survives the rest of the schedule. -/
def Unrevised (c : CallConfig ι τ β δ N κ) (moves : List (κ × Env)) : Prop :=
  ∀ before after, moves = before ++ after →
    Keeps (c.run node before).shared (c.run node moves).shared

/-- The operations of the outcome calls: reads, and creates of outcome keys. -/
def OutcomeOp : NodeOp (Key ι τ) (Blob τ β δ) N → Prop
  | .store (.get _) => True
  | .store (.create (.outcome _) (.verdict _)) => True
  | _ => False

theorem OutcomeOp.keeps {o : NodeOp (Key ι τ) (Blob τ β δ) N} (h : OutcomeOp o) (e : Env)
    (w : World (Key ι τ) (Blob τ β δ) N) : Keeps w (node.exec e o w).2 := by
  obtain ⟨fault, _, _⟩ := e
  unfold OutcomeOp at h
  split at h
  · cases fault <;> exact keeps_refl w
  · cases fault with
    | none => exact keeps_create w _ _
    | failed => exact keeps_refl w
    | lost => exact keeps_create w _ _
  · exact h.elim

omit [DecidableEq ι] [DecidableEq τ] in
theorem outcome_only (txn : τ) :
    (outcome txn : LogTry ι τ β δ N (Option Bool)).Only OutcomeOp := by
  refine Prog.Only.attempt ⟨trivial, fun _ => trivial⟩ fun _ => trivial

omit [DecidableEq ι] [DecidableEq τ] in
theorem call_only (call : Call τ) :
    (call.prog : LogTry ι τ β δ N Bool).Only OutcomeOp := by
  cases call with
  | commit txn =>
    refine Prog.Only.attempt ⟨trivial, fun _ => trivial⟩ fun created => ?_
    cases created with
    | true => trivial
    | false =>
      refine Prog.Only.bind ((outcome_only txn).bind fun v => ?_) fun _ => trivial
      split <;> trivial
  | abort txn =>
    refine Prog.Only.attempt ⟨trivial, fun _ => trivial⟩ fun created => ?_
    cases created with
    | true => trivial
    | false => exact (outcome_only txn).attempt fun _ => trivial

theorem run_keeps {c : CallConfig ι τ β δ N κ} (h : ∀ i, (c.procs i).prog.Only OutcomeOp)
    (moves : List (κ × Env)) : Keeps c.shared (c.run node moves).shared ∧
      ∀ i, ((c.run node moves).procs i).prog.Only OutcomeOp :=
  Config.run_relates keeps_refl (fun _ _ _ h₁ h₂ _ _ hv => h₂ _ _ (h₁ _ _ hv))
    (fun e _ w ho => ho.keeps e w) h moves

/-- Whatever fails, and in whichever order the calls go on, a recorded decision stays. -/
theorem start_unrevised (calls : κ → Call τ) (w : World (Key ι τ) (Blob τ β δ) N)
    (moves : List (κ × Env)) : Unrevised (startCalls calls w) moves := by
  rintro before after rfl
  have hbefore := (run_keeps (c := startCalls calls w) (fun i => call_only (calls i)) before).2
  rw [Config.run_append]
  exact (run_keeps hbefore after).1

/-- Decisions are never revised, and every report agrees with the record. -/
def OutcomesAgree (calls : κ → Call τ) (c : CallConfig ι τ β δ N κ) (moves : List (κ × Env)) :
    Prop :=
  Unrevised c moves ∧ c.Throughout node (Agreement calls) moves

/-- The outcome calls agree on exactly the schedules where no `commit_txn` fails to read a commit
it lost to. -/
theorem outcomes_agree_iff (calls : κ → Call τ) (w : World (Key ι τ) (Blob τ β δ) N)
    (moves : List (κ × Env)) :
    OutcomesAgree calls (startCalls calls w) moves ↔
      (startCalls calls w).Guarded node (LostCommitReads calls) moves := by
  have hiff : (startCalls calls w).Throughout node (Agreement calls) moves ↔
      (startCalls calls w).Guarded node (LostCommitReads calls) moves :=
    Config.throughout_iff_guarded (fun _ _ _ => staged_step) (fun _ => staged_agreement)
      (fun _ _ _ => agreement_broken) moves (staged_start calls w)
  exact ⟨fun h => hiff.mp h.2, fun h => ⟨start_unrevised calls w moves, hiff.mpr h⟩⟩

/-- A first `commit_txn` takes effect but loses its acknowledgement. The retry finds the outcome
there, cannot read it, and reports an abort of a committed transaction. -/
theorem retried_commit_reports_abort :
    ¬ OutcomesAgree (fun _ : Fin 2 => Call.commit 0)
      (startCalls (fun _ => Call.commit 0) ({} : World (Key Nat Nat) (Blob Nat Nat Nat) Unit))
      [(0, { fault := .lost }), (1, {}), (1, { fault := .failed })] := by
  rintro ⟨_, hthroughout⟩
  have hlast := hthroughout.2.2.2 1 false rfl
  cases hlast

end Fafo
