import Mathlib.Data.Prod.Lex
import Mathlib.Order.WithBot
import Fafo.Acquire

/-! Who waits for whom, and why that has no cycle. -/
namespace Fafo.Acquire

variable {ι : Type} [LinearOrder ι]

/-- What can wait: a parked transaction, or a queued take; and an activation, which does not. -/
inductive Node (ι : Type) where
  | txn (w t : Nat)
  | take (w : Nat) (object : ι) (resp : Nat)
  | activation (w : Nat) (object : ι)
  deriving DecidableEq

def Entry.node (w : Nat) (object : ι) : Entry → Node ι
  | txn t => .txn w t
  | take _ resp => .take w object resp

def Ahead (queue : List Entry) (a b : Entry) : Prop :=
  ∃ before mid after, queue = before ++ a :: mid ++ b :: after

/-- A parked transaction and a queued take wait for the entries ahead of them in the queue of their
frontier object; a transaction waits for its queued take of its frontier, or for its activation. -/
inductive Waits (s : State ι) : Node ι → Node ι → Prop
  | parked {w t : Nat} {p : Parked ι} {object : ι} {a : Entry}
      (hp : (s.workers w).parked t = some p) (hf : p.frontier = some object)
      (ha : Ahead ((s.workers w).queues object) a (.txn t)) : Waits s (.txn w t) (a.node w object)
  | queued {w taker resp : Nat} {object : ι} {a : Entry}
      (ha : Ahead ((s.workers w).queues object) a (.take taker resp)) :
      Waits s (.take w object resp) (a.node w object)
  | taking {w t x owner resp attempt : Nat} {p : Parked ι} {object : ι}
      (hp : (s.workers w).parked t = some p) (hf : p.frontier = some object)
      (hk : ⟨w, t, object, .awaiting owner resp attempt⟩ ∈ s.tasks)
      (hq : .take w resp ∈ (s.workers x).queues object) :
      Waits s (.txn w t) (.take x object resp)
  | activating {w t : Nat} {p : Parked ι} {object : ι} (hp : (s.workers w).parked t = some p)
      (hf : p.frontier = some object) (ha : p.activating = true) :
      Waits s (.txn w t) (.activation w object)

def DeadlockFree (s : State ι) : Prop := ∀ n, ¬ Relation.TransGen (Waits s) n n

/-- What tells the entries of one queue apart. -/
def Entry.id : Entry → Bool × Nat
  | txn t => (false, t)
  | take _ resp => (true, resp)

/-- The participants a transaction may stand in a queue for: those it holds, and its frontier. -/
def Parked.reach (p : Parked ι) : List ι := p.participants.val.take (p.acquired + 1)

/-- The transaction's take of the object stands in a queue. -/
def Asking (s : State ι) (k : TakeTask ι) : Prop :=
  ∃ owner resp attempt x, k.phase = .awaiting owner resp attempt ∧
    .take k.worker resp ∈ (s.workers x).queues k.object

/-- The transaction stands in its own worker's queue of the task's object, its frontier. -/
def Standing (s : State ι) (k : TakeTask ι) : Prop :=
  ∃ p, (s.workers k.worker).parked k.txn = some p ∧ p.frontier = some k.object ∧
    .txn k.txn ∈ (s.workers k.worker).queues k.object

/-- The worker is the object's hash home. -/
def Home (site : Site ι) (w : Nat) (object : ι) : Prop := w = site.defaultWorker object

/-- Queues, parked transactions and takes. `X` names entries whose transaction is about to leave;
who takes an object from within its own worker's queue is `home`. -/
structure Sound (home : Nat → ι → Prop) (X : Nat → Nat → ι → Prop) (s : State ι) : Prop where
  nodup : ∀ w object, (((s.workers w).queues object).map Entry.id).Nodup
  entry : ∀ w t object, .txn t ∈ (s.workers w).queues object →
    X w t object ∨ ∃ p, (s.workers w).parked t = some p ∧ object ∈ p.reach
  held : ∀ w t p, (s.workers w).parked t = some p →
    ∀ object ∈ p.participants.val.take p.acquired,
      ((s.workers w).queues object).head? = some (.txn t)
  fresh : ∀ w t p, (s.workers w).parked t = some p → t < (s.workers w).nextTxn
  foreign : ∀ w object taker resp, .take taker resp ∈ (s.workers w).queues object →
    taker ≠ w ∧ resp < s.nextResp
  asked : ∀ a ∈ s.asks, a.taker ≠ a.dest ∧ a.resp < s.nextResp ∧
    ∀ w object taker, .take taker a.resp ∉ (s.workers w).queues object
  asks_nodup : (s.asks.map Ask.resp).Nodup
  tasks_nodup : (s.tasks.map fun k => (k.worker, k.txn)).Nodup
  taking : ∀ k ∈ s.tasks, k.txn < (s.workers k.worker).nextTxn ∧
    ∀ p, (s.workers k.worker).parked k.txn = some p → p.taking = true ∧ k.object ∈ p.reach
  apart : ∀ k ∈ s.tasks, Asking s k → Standing s k → home k.worker k.object

section Rank

variable (site : Site ι) (s : State ι)

/-- The object a node waits at; a transaction past its last participant waits for nothing, nor does
an activation. -/
def front : Node ι → WithTop ι
  | .txn w t =>
    match ((s.workers w).parked t).bind Parked.frontier with
    | some object => object
    | none => ⊤
  | .take _ object _ => object
  | .activation _ _ => ⊤

/-- Outside of every queue of the object, in the one at its home, in another one. -/
def level (w : Nat) (object : ι) (entry : Bool × Nat) : Nat :=
  if entry ∈ ((s.workers w).queues object).map Entry.id then
    if w = site.defaultWorker object then 1 else 0
  else 2

def position (w : Nat) (object : ι) (entry : Bool × Nat) : Nat :=
  (((s.workers w).queues object).map Entry.id).idxOf entry

/-- The level and the position of a node, at its own front. -/
def depth : Node ι → Nat ×ₗ Nat
  | .txn w t =>
    match ((s.workers w).parked t).bind Parked.frontier with
    | some object => toLex (level site s w object (false, t), position s w object (false, t))
    | none => toLex (0, 0)
  | .take w object resp =>
    toLex (level site s w object (true, resp), position s w object (true, resp))
  | .activation _ _ => toLex (0, 0)

/-- What gets smaller with every wait. -/
def rank (n : Node ι) : (WithTop ι)ᵒᵈ ×ₗ Nat ×ₗ Nat :=
  toLex (OrderDual.toDual (front s n), depth site s n)

end Rank

section Acyclic

variable {site : Site ι} {s : State ι}

theorem idxOf_lt_of_ahead {queue : List Entry} (hnodup : (queue.map Entry.id).Nodup) {a b : Entry}
    (h : Ahead queue a b) :
    (queue.map Entry.id).idxOf a.id < (queue.map Entry.id).idxOf b.id := by
  obtain ⟨before, mid, after, rfl⟩ := h
  simp only [List.map_append, List.map_cons, List.append_assoc, List.cons_append] at hnodup ⊢
  obtain ⟨_, hrest, hdisjoint⟩ := List.nodup_append.mp hnodup
  have ha : a.id ∉ before.map Entry.id :=
    fun hmem => hdisjoint _ hmem _ List.mem_cons_self rfl
  have hb : b.id ∉ before.map Entry.id :=
    fun hmem => hdisjoint _ hmem _ (by simp) rfl
  have hne : a.id ≠ b.id := by
    intro heq
    have := (List.nodup_cons.mp hrest).1
    rw [heq] at this
    simp at this
  rw [List.idxOf_append_of_notMem ha, List.idxOf_append_of_notMem hb, List.idxOf_cons_self,
    List.idxOf_cons_ne _ hne]
  omega

theorem Ahead.mem {queue : List Entry} {a b : Entry} (h : Ahead queue a b) :
    a ∈ queue ∧ b ∈ queue := by
  obtain ⟨before, mid, after, rfl⟩ := h
  simp

/-- Sorted participants: whatever a transaction stands in a queue for is at most its frontier. -/
theorem Parked.le_frontier (p : Parked ι) {object frontier : ι} (h : object ∈ p.reach)
    (hf : p.frontier = some frontier) : object ≤ frontier := by
  obtain ⟨hlt, rfl⟩ := List.getElem?_eq_some_iff.mp hf
  obtain ⟨i, hi, rfl⟩ := List.mem_take_iff_getElem.mp h
  rcases Nat.lt_or_ge i p.acquired with hless | hge
  · exact (List.pairwise_iff_getElem.mp p.participants.property i p.acquired _ hlt hless).le
  · obtain rfl : i = p.acquired := by omega
    exact le_rfl

/-- Nobody is about to leave. -/
def Nobody (_ _ : Nat) (_ : ι) : Prop := False

theorem front_txn {w t : Nat} {p : Parked ι} {object : ι}
    (hp : (s.workers w).parked t = some p) (hf : p.frontier = some object) :
    front s (.txn w t) = object := by
  simp [front, hp, hf]

theorem depth_txn {w t : Nat} {p : Parked ι} {object : ι}
    (hp : (s.workers w).parked t = some p) (hf : p.frontier = some object) :
    depth site s (.txn w t) =
      toLex (level site s w object (false, t), position s w object (false, t)) := by
  simp [depth, hp, hf]

/-- Whoever stands in a queue is at its object, or beyond it. -/
theorem Sound.front_node (hs : Sound (Home site) Nobody s) {w : Nat} {object : ι} {a : Entry}
    (ha : a ∈ (s.workers w).queues object) :
    (object : WithTop ι) < front s (a.node w object) ∨
      (front s (a.node w object) = object ∧ depth site s (a.node w object) =
        toLex (level site s w object a.id, position s w object a.id)) := by
  cases a with
  | take taker resp => exact .inr ⟨rfl, rfl⟩
  | txn t =>
    obtain ⟨p, hp, hreach⟩ := (hs.entry w t object ha).resolve_left id
    cases hf : p.frontier with
    | none =>
      refine .inl ?_
      simp [Entry.node, front, hp, hf]
    | some frontier =>
      rcases (p.le_frontier hreach hf).lt_or_eq with hlt | rfl
      · refine .inl ?_
        rw [Entry.node, front_txn hp hf]
        exact WithTop.coe_lt_coe.mpr hlt
      · exact .inr ⟨front_txn hp hf, depth_txn hp hf⟩

theorem rank_lt {n m : Node ι} (h : front s n < front s m ∨
    front s m = front s n ∧ depth site s m < depth site s n) : rank site s m < rank site s n := by
  rw [rank, rank, Prod.Lex.toLex_lt_toLex]
  rcases h with hlt | ⟨heq, hlt⟩
  · exact .inl hlt
  · exact .inr ⟨by rw [heq], hlt⟩

theorem level_of_mem {w : Nat} {object : ι} {a : Entry}
    (ha : a ∈ (s.workers w).queues object) :
    level site s w object a.id = if w = site.defaultWorker object then 1 else 0 :=
  if_pos (List.mem_map_of_mem ha)

/-- Within one queue the position goes down. -/
theorem Sound.rank_ahead (hs : Sound (Home site) Nobody s) {w : Nat} {object : ι} {a b : Entry}
    {n : Node ι} (ha : Ahead ((s.workers w).queues object) a b) (hfront : front s n = object)
    (hdepth : depth site s n = toLex (level site s w object b.id, position s w object b.id)) :
    rank site s (a.node w object) < rank site s n := by
  obtain ⟨hamem, hbmem⟩ := ha.mem
  refine rank_lt ?_
  rcases hs.front_node hamem with hlt | ⟨heq, hda⟩
  · exact .inl (hfront ▸ hlt)
  · refine .inr ⟨heq.trans hfront.symm, ?_⟩
    rw [hda, hdepth, Prod.Lex.toLex_lt_toLex, level_of_mem hamem, level_of_mem hbmem]
    exact .inr ⟨rfl, idxOf_lt_of_ahead (hs.nodup w object) ha⟩

/-- Whoever waits is above whom it waits for: at a later object, or in a queue the other's is
reached from, or further back. -/
theorem Sound.rank_waits (hs : Sound (Home site) Nobody s) {n m : Node ι} (h : Waits s n m) :
    rank site s m < rank site s n := by
  cases h with
  | queued ha => exact hs.rank_ahead ha rfl rfl
  | parked hp hf ha => exact hs.rank_ahead ha (front_txn hp hf) (depth_txn hp hf)
  | activating hp hf _ =>
    refine rank_lt (.inl ?_)
    rw [front_txn hp hf]
    exact WithTop.coe_lt_top _
  | @taking w t x owner resp attempt p object hp hf hk hq =>
    refine rank_lt (.inr ⟨(front_txn hp hf).symm, ?_⟩)
    rw [depth_txn hp hf, depth, Prod.Lex.toLex_lt_toLex]
    refine .inl ?_
    have hx : level site s x object (true, resp) = if x = site.defaultWorker object then 1 else 0 :=
      level_of_mem hq
    rw [hx]
    by_cases hmem : .txn t ∈ (s.workers w).queues object
    · -- a transaction that stands in a queue is taking only at the object's home
      have hhome : w = site.defaultWorker object := hs.apart _ hk ⟨owner, resp, attempt, x, rfl, hq⟩
        ⟨p, hp, hf, hmem⟩
      have hw : level site s w object (false, t) = if w = site.defaultWorker object then 1 else 0 :=
        level_of_mem hmem
      have hne := (hs.foreign x object w resp hq).1
      rw [hw, if_pos hhome, if_neg (by rw [← hhome]; exact Ne.symm hne)]
      exact Nat.zero_lt_one
    · have hw : level site s w object (false, t) = 2 := by
        refine if_neg fun hid => hmem ?_
        obtain ⟨a, ha, haid⟩ := List.mem_map.mp hid
        cases a with
        | txn t' =>
          cases haid
          exact ha
        | take _ _ => cases haid
      rw [hw]
      split <;> omega

/-- A sound state has no cycle of waits. -/
theorem Sound.deadlockFree (hs : Sound (Home site) Nobody s) : DeadlockFree s := by
  have hless : ∀ n m, Relation.TransGen (Waits s) n m → rank site s m < rank site s n := by
    intro n m h
    induction h with
    | single h => exact hs.rank_waits h
    | tail _ h ih => exact (hs.rank_waits h).trans ih
  exact fun n h => lt_irrefl _ (hless n n h)

end Acyclic

end Fafo.Acquire
