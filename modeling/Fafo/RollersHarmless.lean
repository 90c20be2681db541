import Fafo.RollerSpecs

/-! Concurrent rollers-forward are harmless exactly when no promotion lands on a base that was
raised since it read it. -/
namespace Fafo.Legacy.Rollers

open Interleave

variable {ι τ β ρ : Type} [DecidableEq ι] [DecidableEq τ]

section Alone

variable {F : Files β} {held : Blobs (Key ι τ) (Blob ι τ β)}

theorem succeeds_promoteStaged (name : Name ι) (blob : Blob ι τ β) (w : LegacyWorld ι τ β) :
    Succeeds (promoteStaged F name blob) w := by
  obtain ⟨object, kind⟩ := name
  cases kind with
  | delta counter => exact Succeeds.op _ w
  | snap =>
    refine Succeeds.attempt (Succeeds.op _ w) fun read t => ?_
    split
    · exact Succeeds.ret () t
    · exact Succeeds.op _ t

theorem succeeds_rollStaged (keys : List (Key ι τ)) (w : LegacyWorld ι τ β) :
    Succeeds (rollStaged F keys) w := by
  induction keys generalizing w with
  | nil => exact Succeeds.ret () w
  | cons key keys ih =>
    refine Succeeds.attempt (Succeeds.op _ w) fun staged t => Succeeds.attempt ?_ fun _ u => ?_
    · split
      · exact succeeds_promoteStaged _ _ t
      · exact Succeeds.ret () t
    · exact Succeeds.attempt (Succeeds.op _ u) fun _ => ih

theorem succeeds_rollInline (entries : List (Name ι × Hex β)) (w : LegacyWorld ι τ β) :
    Succeeds (rollInline F entries) w := by
  induction entries generalizing w with
  | nil => exact Succeeds.ret () w
  | cons entry entries ih =>
    obtain ⟨name, hexed⟩ := entry
    refine Succeeds.attempt ?_ fun _ => ih
    split
    · exact succeeds_promoteStaged name _ w
    · exact Succeeds.ret () w

theorem succeeds_rollForward (key : Key ι τ) (record : TxnRecord ι τ β) (w : LegacyWorld ι τ β) :
    Succeeds (rollForward F key record) w := by
  refine Succeeds.attempt ?_ fun _ => Succeeds.op _
  split
  · exact Succeeds.attempt (Succeeds.op _ w) fun keys => succeeds_rollStaged keys
  · exact succeeds_rollInline record.inline w

theorem succeeds_rollRecords (wanted : TxnRecord ι τ β → Bool) (tidy : Bool)
    (keys : List (Key ι τ)) (w : LegacyWorld ι τ β) :
    Succeeds (rollRecords F wanted tidy keys) w := by
  induction keys generalizing w with
  | nil => exact Succeeds.ret () w
  | cons key keys ih =>
    refine Succeeds.attempt (Succeeds.op _ w) fun bytes t => ?_
    cases bytes with
    | none => exact ih t
    | some blob =>
      dsimp only
      split
      · refine Succeeds.attempt ?_ fun _ => ih
        split
        · exact Succeeds.op _ t
        · exact Succeeds.ret () t
      · next record _ =>
        refine Succeeds.attempt ?_ fun _ => ih
        split
        · exact succeeds_rollForward key record t
        · exact Succeeds.ret () t

theorem succeeds_discardStaging (keys : List (Key ι τ)) (w : LegacyWorld ι τ β) :
    Succeeds (discardStaging keys) w := by
  induction keys generalizing w with
  | nil => exact Succeeds.ret () w
  | cons key keys ih =>
    exact Succeeds.note (fun t => Succeeds.attempt (Succeeds.op _ t) fun _ => ih) w

theorem succeeds_recover (w : LegacyWorld ι τ β) : Succeeds (recover F) w := by
  refine Succeeds.attempt (Succeeds.op _ w) fun keys t => Succeeds.attempt ?_ fun _ u => ?_
  · exact succeeds_rollRecords _ true keys t
  · exact Succeeds.attempt (Succeeds.op _ u) fun keys => succeeds_discardStaging keys

/-- What a task has just read is still there. -/
def Current (last : Option (Event (nodeSig (Key ι τ) (Blob ι τ β) (Note ι τ))))
    (w : LegacyWorld ι τ β) : Prop :=
  ∀ key read, last = some ⟨.store (.get key), .ok read⟩ → w.get key = read

theorem Current.fresh {e : Env}
    {last : Option (Event (nodeSig (Key ι τ) (Blob ι τ β) (Note ι τ)))}
    {w : LegacyWorld ι τ β} (h : Current last w)
    (o : NodeOp (Key ι τ) (Blob ι τ β) (Note ι τ)) : Fresh F e last o w := by
  unfold Fresh
  split
  · next key read object blob => exact fun _ _ => .inl (h key read rfl)
  · trivial

theorem current_exec (e : Env) (o : NodeOp (Key ι τ) (Blob ι τ β) (Note ι τ))
    (w : LegacyWorld ι τ β) :
    Current (some ⟨o, (node.exec e o w).1⟩) (node.exec e o w).2 := by
  intro key read heq
  obtain ⟨rfl, hread⟩ := Sigma.mk.inj (Option.some.inj heq)
  have hread' : (exec e (.store (.get key)) w).1 = .ok read := eq_of_heq hread
  have hkeeps : (exec e (.store (.get key)) w).2 = w :=
    exec_read e (o := .store (.get key)) trivial w
  change (exec e (.store (.get key)) w).2.get key = read
  rw [hkeeps]
  unfold exec at hread'
  cases hf : e.fault <;> simp [hf] at hread'
  exact Except.ok.inj hread'

/-- One recovery that runs alone settles every object. -/
theorem recovered_settled (hheld : Committed F held) : Settled F held (recovered F held) := by
  have hs : Sound F held { blobs := held } := sound_start []
  have hsettles := ((runs_recover hheld hs).frame (K := Sound F held)
    (fun _ _ h => h.sound) (fun _ _ h => h.sound) hs) none
  have hans := Sat.solo (fun _ => ({} : Env)) (fun _ _ => True) (fun _ => rfl)
    (fun _ _ _ _ _ => rfl) (fun _ _ _ => trivial) (succeeds_recover (F := F) { blobs := held } none)
    trivial 0
  have hend := Sat.solo (fun _ => ({} : Env)) Current Rolls.refl
    (fun _ _ o _ h => h.fresh o) (fun _ => current_exec _) hsettles nofun 0
  obtain ⟨hall, hsound⟩ := hend
  obtain ⟨a, ha⟩ := hans
  exact ⟨hsound, hall ha⟩

end Alone

section Runs

variable [DecidableEq ρ] (F : Files β) (held : Blobs (Key ι τ) (Blob ι τ β)) (calls : ρ → Call ι τ)

/-- The condition, as a condition on a step of the run. -/
def FreshStep (c : RollerConfig ι τ ρ β) (r : ρ) (e : Env) : Prop :=
  match (c.procs r).prog with
  | .call o _ => Fresh F e (c.procs r).last o c.shared
  | .ret _ => True

/-- Every committed record is wanted by a call that has returned. -/
def Covered (c : RollerConfig ι τ ρ β) : Prop :=
  ∀ txn record, committedRecord held txn = some record →
    ∃ r, (c.procs r).prog = .ret (.ok ()) ∧ (calls r).wants txn record

/-- No base's counter falls, and once calls that cover the records have returned the objects are
those one recovery leaves alone. -/
structure Harmless (moves : List (ρ × Env)) : Prop where
  rises : ∀ before between after, moves = before ++ between ++ after →
    Rises F ((launch F held calls).run node before).shared
      ((launch F held calls).run node (before ++ between)).shared
  settles : ∀ before after, moves = before ++ after →
    Covered held calls ((launch F held calls).run node before) →
    ∀ key, objectsPrefix key = true →
      ((launch F held calls).run node before).shared.get key = (recovered F held).get key

variable {F held calls}

omit [DecidableEq ρ] in
theorem FreshStep.fresh (c : RollerConfig ι τ ρ β) (r : ρ) (e : Env)
    (o : NodeOp (Key ι τ) (Blob ι τ β) (Note ι τ))
    (k : NodeOp.Answer o → LegacyTry ι τ β Unit) (h : FreshStep F c r e)
    (hp : (c.procs r).prog = .call o k) : Fresh F e (c.procs r).last o c.shared := by
  rw [FreshStep, hp] at h
  exact h

omit [DecidableEq ρ] in
/-- Every call keeps its contract, from any store of committed records. -/
theorem contracts_launch (hheld : Committed F held) (calls : ρ → Call ι τ) :
    Contracts node (Fresh F) (fun _ => Rolls F held) (fun _ => Rolls F held)
      (fun r a t => a = .ok () → ∀ txn record, committedRecord held txn = some record →
        (calls r).wants txn record → AllReflected F held t txn) (launch F held calls) :=
  fun r => runs_call hheld (calls r) (sound_start []) _

theorem rolls_reachable (hheld : Committed F held) {c d : RollerConfig ι τ ρ β}
    (hc : Reach node (FreshStep F) (launch F held calls) c)
    (hd : Reach node (FreshStep F) c d) : Rolls F held c.shared d.shared :=
  ((contracts_launch hheld calls).reach (fun _ _ _ _ _ => id) FreshStep.fresh hc).invariant
    (fun _ _ _ _ _ => id) FreshStep.fresh (fun _ _ _ hst hs => hs.trans hst) (.refl _) hd

/-- Calls that cover the records leave every object settled. -/
theorem settled_covered (hheld : Committed F held) {c : RollerConfig ι τ ρ β}
    (hc : Reach node (FreshStep F) (launch F held calls) c) (hcovered : Covered held calls c) :
    Settled F held c.shared := by
  have hrolls : Rolls F held (launch F held calls).shared c.shared :=
    rolls_reachable hheld .refl hc
  refine ⟨hrolls.sound (sound_start []), fun txn name blob hcarried => ?_⟩
  obtain ⟨record, hrecord⟩ := hcarried.committed
  obtain ⟨r, hend, hwants⟩ := hcovered txn record hrecord
  have hcontract := (contracts_launch hheld calls).reach (fun _ _ _ _ _ => id)
    FreshStep.fresh hc r
  rw [hend] at hcontract
  exact hcontract c.shared (.refl _) rfl txn record hrecord hwants name blob hcarried

omit [DecidableEq ρ] in
/-- What lands stale is a promotion below the base it replaces. -/
theorem stale_of_not_fresh {e : Env}
    {last : Option (Event (nodeSig (Key ι τ) (Blob ι τ β) (Note ι τ)))}
    {o : NodeOp (Key ι τ) (Blob ι τ β) (Note ι τ)} {w : LegacyWorld ι τ β}
    (h : ¬ Fresh F e last o w) : ∃ object blob base, o = .store (.put (.base object) blob) ∧
      e.fault ≠ .failed ∧ w.get (.base object) = some base ∧ F.counter blob < F.counter base := by
  unfold Fresh at h
  split at h
  · next key read object blob =>
    push Not at h
    obtain ⟨rfl, hfault, _, base, hbase, hlt⟩ := h
    exact ⟨object, blob, base, rfl, hfault, hbase, hlt⟩
  · exact absurd trivial h

/-- A promotion that is not fresh lowers its base. -/
theorem not_rises_of_not_fresh {c : RollerConfig ι τ ρ β} {r : ρ} {e : Env}
    (h : ¬ FreshStep F c r e) : ¬ Rises F c.shared (c.step node r e).shared := by
  intro hrises
  rw [Config.step_shared] at hrises
  unfold FreshStep at h
  cases hp : (c.procs r).prog with
  | ret a =>
    rw [hp] at h
    exact h trivial
  | call o k =>
    rw [hp] at h hrises
    obtain ⟨object, blob, base, rfl, hfault, hbase, hlt⟩ := stale_of_not_fresh h
    obtain ⟨base', hbase', hle⟩ := hrises object base hbase
    have hput : (exec e (.store (.put (.base object) blob)) c.shared).2 =
        c.shared.effect (.put (.base object) blob) := exec_lands hfault _ _
    change (exec e (.store (.put (.base object) blob)) c.shared).2.get _ = _ at hbase'
    rw [hput, World.get_put, if_pos rfl] at hbase'
    obtain rfl : blob = base' := Option.some.inj hbase'
    omega

/-- The rollers are harmless exactly when every promotion that lands is fresh. -/
theorem rollers_harmless_iff (hheld : Committed F held) (moves : List (ρ × Env)) :
    Harmless F held calls moves ↔ (launch F held calls).Guarded node (FreshStep F) moves := by
  constructor
  · intro h
    refine Config.guarded_of_forall fun before m after hmoves => ?_
    by_contra hstale
    refine not_rises_of_not_fresh hstale ?_
    have hrises := h.rises before [m] after (by simp [hmoves])
    rwa [Config.run_append] at hrises
  · intro h
    refine ⟨?_, ?_⟩
    · rintro before between after rfl
      obtain ⟨hfirst, _⟩ := h.append
      obtain ⟨hbefore, hbetween⟩ := hfirst.append
      rw [Config.run_append]
      exact (rolls_reachable hheld hbefore.reach hbetween.reach).rises
    · rintro before after rfl hcovered key hkey
      obtain ⟨hbefore, _⟩ := h.append
      exact (settled_covered hheld hbefore.reach hcovered).unique hheld (recovered_settled hheld)
        key hkey

end Runs

/-- Files that are numbers: their own counters. -/
def counters : Files Nat := ⟨fun _ => 0, id⟩

/-- A record with a snapshot of object 0 in it. -/
def snapshotRecord (txn : Nat) : TxnRecord Nat Nat Nat :=
  ⟨txn, [0], [(⟨0, .snap⟩, hexEncode (6 * txn + 3))]⟩

/-- Two committed records, whose snapshots have counters 3 and 9. -/
def twoRecords : Blobs (Key Nat Nat) (Blob Nat Nat Nat) :=
  AList.insert (.record 0) (.record (snapshotRecord 0))
    (AList.insert (.record 1) (.record (snapshotRecord 1)) ∅)

def bothRecover (_ : Bool) : Call Nat Nat := .recover

def recovering (r : Bool) (n : Nat) : List (Bool × Env) := List.replicate n (r, {})

/-- A recovery reads that there is no base, and another one rolls both records forward. -/
def overtaken : List (Bool × Env) := recovering false 3 ++ recovering true 10

/-- The first recovery goes on, and puts the older snapshot. -/
def stalePut : List (Bool × Env) := recovering false 4

/-- Both recoveries return, and the base is the older snapshot. -/
theorem stale_put_rolls_back : ¬ Harmless counters twoRecords bothRecover (overtaken ++ stalePut) ∧
    (∀ r, (((launch counters twoRecords bothRecover).run node (overtaken ++ stalePut)).procs r).prog
      = .ret (.ok ())) ∧
    ((launch counters twoRecords bothRecover).run node (overtaken ++ stalePut)).shared.get
      (.base 0) = some (.bytes 3) ∧
    (recovered counters twoRecords).get (.base 0) = some (.bytes 9) := by
  refine ⟨fun h => ?_, fun r => by cases r <;> rfl, rfl, rfl⟩
  obtain ⟨base, hbase, hle⟩ := h.rises overtaken stalePut [] (by simp) 0 (.bytes 9) rfl
  obtain rfl : Blob.bytes 3 = base := Option.some.inj hbase
  exact absurd hle (by decide)

theorem committedRecord_twoRecords {txn : Nat} {record : TxnRecord Nat Nat Nat}
    (h : committedRecord twoRecords txn = some record) : record = snapshotRecord txn := by
  unfold committedRecord twoRecords at h
  by_cases h0 : txn = 0
  · subst h0
    simpa [parseRecord, eq_comm] using h
  · by_cases h1 : txn = 1
    · subst h1
      simpa [parseRecord, eq_comm, -AList.insert_empty] using h
    · simp [h0, h1, -AList.insert_empty] at h

theorem carried_twoRecords {txn : Nat} {name : Name Nat} {blob : Blob Nat Nat Nat}
    (hc : Carried twoRecords txn name blob) : name = ⟨0, .snap⟩ ∧ blob = .bytes (6 * txn + 3) := by
  obtain ⟨record, hrecord, hinline, _⟩ | ⟨record, hexed, bytes, hrecord, hmem, hbytes, rfl⟩ := hc
  · rw [committedRecord_twoRecords hrecord] at hinline
    cases hinline
  · rw [committedRecord_twoRecords hrecord] at hmem
    obtain ⟨rfl, rfl⟩ := Prod.mk.inj (List.mem_singleton.mp hmem)
    exact ⟨rfl, by simpa [hexDecode, hexEncode, eq_comm] using hbytes⟩

theorem committed_twoRecords : Committed counters twoRecords where
  named txn record h := by rw [committedRecord_twoRecords h]; rfl
  snapshots txn txn' object blob blob' hc hc' hcounter := by
    obtain ⟨_, rfl⟩ := carried_twoRecords hc
    obtain ⟨_, rfl⟩ := carried_twoRecords hc'
    exact congrArg Blob.bytes hcounter
  deltas txn txn' object counter blob blob' hc := by
    cases (carried_twoRecords hc).1

/-- A recovery is interrupted after its first promotion, and another one sees it through. -/
def interrupted : List (Bool × Env) := recovering false 4 ++ recovering true 9

theorem harmless_interrupted : Harmless counters twoRecords bothRecover interrupted := by
  refine (rollers_harmless_iff committed_twoRecords interrupted).mpr ?_
  iterate 3 refine ⟨trivial, ?_⟩
  refine ⟨fun _ _ => .inl rfl, ?_⟩
  iterate 6 refine ⟨trivial, ?_⟩
  refine ⟨fun _ _ => .inl rfl, ?_⟩
  iterate 2 refine ⟨trivial, ?_⟩
  trivial

end Fafo.Legacy.Rollers
