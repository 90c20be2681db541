import Mathlib.Data.List.Nodup
import Mathlib.Tactic.SplitIfs
import Fafo.Library.Lists
import Fafo.Statements

/-! When a transaction is all or nothing, whatever its statements are. -/
namespace Fafo.Apply

variable {O Q D R K : Type}

/-- The database of an object, as committed. -/
def dbOf (objects : Objects O D) (id : O) : Option D := (objects id).map (·.db)

/-- No live connection of an object is left inside a transaction. -/
def ClosedAt (objects : Objects O D) (id : O) : Prop := ∀ c, objects id = some c → c.txn = none

variable [DecidableEq O] (e : Sqlite Q D R (K × O))

/-- SQLite refuses the object's connection a `BEGIN`. -/
def BeginFails (cap : Option K) (objects : Objects O D) (id : O) : Prop :=
  ∃ c msg, objects id = some c ∧ e.begins (authorizer cap id) c = .error msg

/-- The connections once every participant has begun. -/
def begun (ids : List O) (objects : Objects O D) : Objects O D := fun id =>
  if id ∈ ids then (objects id).map fun c => { c with txn := some c.db } else objects id

/-- SQLite refuses the object's connection a `COMMIT`. -/
def CommitFails (objects : Objects O D) (id : O) : Prop :=
  ∃ c msg, objects id = some c ∧ (e.commit c).1 = .error msg

/-- The statements of a write, after the `BEGIN`s. -/
def written (w : Worker O D) (call : Call O Q K) : List (Ran O D) :=
  e.writes call.cap call.ops (begun call.participants w.objects)

/-- Each statement that leaves something else committed on the participant than the call found is
followed by one that puts it back. -/
def Undone (w : Worker O D) (call : Call O Q K) (id : O) : Prop :=
  Redeemed (fun c => some c.db = dbOf w.objects id) id (written e w call)

/-- If SQLite refuses one of the statements, or accepts them all and then refuses a `COMMIT`, what
they committed is undone, or reverted with the participants that had their `COMMIT`. -/
def CommitsNothing (w : Worker O D) (call : Call O Q K) : Prop :=
  ((∃ ran ∈ written e w call, ran.accepted = false) →
    ∀ id ∈ call.participants, Undone e w call id) ∧
  ((∀ ran ∈ written e w call, ran.accepted = true) →
    ∀ done id rest, call.participants = done ++ id :: rest →
      (∀ k ∈ done, ¬ CommitFails e (leave (begun call.participants w.objects)
        (written e w call)) k) →
      CommitFails e (leave (begun call.participants w.objects) (written e w call)) id →
      ∀ k ∈ id :: rest, k ∉ Groups.closure w.pendingTxns done → Undone e w call k)

/-- The condition on a call. In a read-only one, each statement that leaves a participant inside a
transaction is followed by one that leaves it outside. A write is refused a `BEGIN` at its first
participant or at none, and its statements do not commit what the call must take back. -/
def Settled (w : Worker O D) (call : Call O Q K) : Prop :=
  (∀ id ∈ call.participants, w.objects id ≠ none) →
    if call.readOnly then
      ∀ id ∈ call.participants,
        Redeemed (fun c => c.txn = none) id (e.requests call.ops w.objects)
    else
      (∀ id ∈ call.participants, BeginFails e call.cap w.objects id →
        ∀ first ∈ call.participants.head?, BeginFails e call.cap w.objects first) ∧
      ((∀ id ∈ call.participants, ¬ BeginFails e call.cap w.objects id) → CommitsNothing e w call)

/-- Every live connection is outside a transaction. -/
def Idle (objects : Objects O D) : Prop := ∀ id, ClosedAt objects id

variable {e}

omit [DecidableEq O] in
theorem eachOf_keeps {S X Y : Type} {f : X → S → Except ApiError Y × S} {P : S → Prop} {xs : List X}
    (h : ∀ x ∈ xs, ∀ s, P s → P (f x s).2) {s : S} (hs : P s) : P (eachOf f xs s).2 := by
  induction xs generalizing s with
  | nil => exact hs
  | cons x xs ih =>
    have hx := h x List.mem_cons_self s hs
    have hrest := ih (fun y hy => h y (List.mem_cons_of_mem _ hy)) hx
    rw [eachOf]
    rcases hfx : f x s with ⟨r, s'⟩
    rw [hfx] at hx hrest
    cases r with
    | error err => exact hx
    | ok y =>
      dsimp only
      rcases hxs : eachOf f xs s' with ⟨r', s''⟩
      rw [hxs] at hrest
      cases r' <;> exact hrest

theorem onConn_of_some {X : Type} {f : Conn D → Except ApiError X × Conn D} {id : O}
    {objects : Objects O D} {c : Conn D} (h : objects id = some c) :
    onConn f id objects = ((f c).1, Function.update objects id (some (f c).2)) := by
  simp [onConn, h]

theorem onConn_ne {X : Type} (f : Conn D → Except ApiError X × Conn D) {id other : O}
    (objects : Objects O D) (h : other ≠ id) : (onConn f id objects).2 other = objects other := by
  unfold onConn
  cases objects id with
  | none => rfl
  | some c => exact Function.update_of_ne h ..

theorem revertClosure_objects (w : Worker O D) (seed : List O) (id : O) :
    (revertClosure w seed).objects id =
      if id ∈ Groups.closure w.pendingTxns seed then none else w.objects id := rfl

theorem dbOf_begun (ids : List O) (objects : Objects O D) (id : O) :
    dbOf (begun ids objects) id = dbOf objects id := by
  unfold dbOf begun
  split_ifs
  · rw [Option.map_map]
    rfl
  · rfl

theorem db_begun {ids : List O} {objects : Objects O D} {id : O} {c : Conn D}
    (h : begun ids objects id = some c) : some c.db = dbOf objects id := by
  rw [← dbOf_begun ids, dbOf, h]
  rfl

/-- What happens to the connections of a worker: calls, activations from an image, evictions and
reverts, and changes to the pending transactions. -/
inductive Step (O Q D K : Type) where
  | call (call : Call O Q K)
  | activate (id : O) (image : D)
  | purge (id : O)
  | pending (txns : List (List O))

variable [ToString O]

def Worker.step (e : Sqlite Q D R (K × O)) (w : Worker O D) : Step O Q D K → Worker O D
  | .call call => (apply e w call).2
  | .activate id image => { w with objects := Function.update w.objects id (some ⟨image, none⟩) }
  | .purge id => { w with objects := Function.update w.objects id none }
  | .pending txns => { w with pendingTxns := txns }

/-- A worker that has just started. -/
def Worker.start : Worker O D := ⟨fun _ => none, []⟩

omit [ToString O] in
theorem idle_update {objects : Objects O D} (hidle : Idle objects) {c : Option (Conn D)}
    (hc : ∀ c', c = some c' → c'.txn = none) (id : O) : Idle (Function.update objects id c) := by
  intro other c' hc'
  by_cases hother : other = id
  · subst hother
    rw [Function.update_self] at hc'
    exact hc c' hc'
  · rw [Function.update_of_ne hother] at hc'
    exact hidle other c' hc'

/-- The statement stays inside the transaction it runs in, and outside any if it runs in none. -/
def Plain (e : Sqlite Q D R (K × O)) (sql : Q) : Prop :=
  ∀ a c, (c.txn = none → (e.run a sql c).2.txn = none) ∧
    (c.txn ≠ none → (e.run a sql c).2.txn ≠ none ∧ (e.run a sql c).2.db = c.db)

section

omit [ToString O]

theorem plain_query_idle {op : Op O Q} (h : Plain e op.sql) {objects : Objects O D}
    (hidle : Idle objects) : Idle (queryOp e op objects).2 := by
  cases hc : objects op.object with
  | none => simpa [queryOp, onConn, hc] using hidle
  | some c =>
    have hclosed := hidle op.object c hc
    rw [queryOp, onConn_of_some hc]
    refine idle_update hidle (fun c' hc' => ?_) op.object
    cases hc'
    cases e.readonly c op.sql with
    | error msg => exact hclosed
    | ok b =>
      cases b with
      | false => exact hclosed
      | true => exact (h none c).1 hclosed

/-- Inside the transactions of a call, such a statement commits nothing and ends none. -/
theorem plain_run_open (cap : Option K) {op : Op O Q} (h : Plain e op.sql) {objects : Objects O D}
    {id : O} (hopen : ∀ c, objects id = some c → c.txn ≠ none) :
    dbOf (runOp e cap op objects).2 id = dbOf objects id ∧
      ∀ c, (runOp e cap op objects).2 id = some c → c.txn ≠ none := by
  by_cases hid : id = op.object
  · subst hid
    cases hc : objects op.object with
    | none => simp [runOp, onConn, hc, dbOf]
    | some c =>
      obtain ⟨htxn, hdb⟩ := (h (authorizer cap op.object) c).2 (hopen c hc)
      rw [runOp, onConn_of_some hc, dbOf, dbOf, hc]
      simp only [Function.update_self, Option.map_some, hdb, Option.some.injEq, forall_eq',
        true_and]
      exact htxn
  · rw [runOp, dbOf, onConn_ne _ _ hid]
    exact ⟨rfl, hopen⟩

/-- Calls of such statements meet the condition, unless a `BEGIN` after the first is refused. -/
theorem settled_of_plain {w : Worker O D} (hidle : Idle w.objects) {call : Call O Q K}
    (hplain : ∀ op ∈ call.ops, Plain e op.sql)
    (hbegin : ∀ id ∈ call.participants, BeginFails e call.cap w.objects id →
      ∀ first ∈ call.participants.head?, BeginFails e call.cap w.objects first) :
    Settled e w call := by
  intro _
  split_ifs
  · intro id _
    rw [← leave_good_iff (hidle id), ← eachOf_queryOp]
    exact eachOf_keeps (fun op hop _ => plain_query_idle (hplain op hop)) hidle id
  · have hundone : ∀ id ∈ call.participants, Undone e w call id := by
      intro id hid
      have hran : dbOf (eachOf (runOp e call.cap) call.ops
          (begun call.participants w.objects)).2 id = dbOf w.objects id := by
        refine (eachOf_keeps (P := fun s : Objects O D => dbOf s id = dbOf w.objects id ∧
          ∀ c, s id = some c → c.txn ≠ none) (fun op hop s hs => ?_) ⟨dbOf_begun .., ?_⟩).1
        · obtain ⟨hdb, hopen⟩ := plain_run_open call.cap (hplain op hop) hs.2
          exact ⟨hdb.trans hs.1, hopen⟩
        · intro c hc
          rw [begun, if_pos hid] at hc
          obtain ⟨c', _, rfl⟩ := Option.map_eq_some_iff.mp hc
          nofun
      refine (leave_good_iff fun c (hc : begun call.participants w.objects id = some c) =>
        db_begun hc).mp fun c hc => ?_
      rw [← hran, eachOf_runOp, dbOf]
      exact (congrArg (Option.map _) hc).symm
    refine ⟨hbegin, fun _ => ⟨fun _ => hundone, fun _ done id rest hsplit _ _ k hk _ => ?_⟩⟩
    exact hundone k (by rw [hsplit]; exact List.mem_append_right _ hk)

end

/-- A few statements, on a database that is a list of rows. -/
inductive Sql where
  | begin
  | commit
  | rollback
  | insert (row : Nat)
  deriving DecidableEq

def Sql.run : Sql → Conn (List Nat) → Except String Unit × Conn (List Nat)
  | begin, ⟨db, none⟩ => (.ok (), ⟨db, some db⟩)
  | commit, ⟨_, some work⟩ => (.ok (), ⟨work, none⟩)
  | rollback, ⟨db, some _⟩ => (.ok (), ⟨db, none⟩)
  | insert row, ⟨db, none⟩ => (.ok (), ⟨db ++ [row], none⟩)
  | insert row, ⟨db, some work⟩ => (.ok (), ⟨db, some (work ++ [row])⟩)
  | _, c => (.error "wrong transaction state", c)

def rows {A : Type} : Sqlite Sql (List Nat) Unit A where
  readonly _ sql := .ok (match sql with | .insert _ => false | _ => true)
  run _ := Sql.run
  begins _ _ := .ok ()
  commits _ := .ok ()
  changeCounter db := some db.length
  readonly_writes_nothing := by
    rintro ⟨db, txn⟩ sql _ hreadonly hpristine
    cases sql with
    | insert row => cases hreadonly
    | _ =>
      obtain rfl | rfl : txn = none ∨ txn = some db := hpristine <;> simp [Sql.run, Conn.Pristine]

end Fafo.Apply
