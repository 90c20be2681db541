import Fafo.AppendOnly
import Fafo.Boats

/-! What the tasks place in the log: locks for what their boats carry, and a commit behind them. -/
namespace Fafo

/-- What a job is to ship. -/
def Job.items {ι β δ : Type} : Job ι β δ → List (ShipItem ι β δ)
  | ship items => items
  | _ => []

namespace Serial

open Interleave

variable {ι τ β δ α α' : Type} [LinearOrder ι]

/-- What a boat carries to an object. -/
def cargo (items : List (ShipItem ι β δ)) (id : ι) : Option (LogPayload β δ) :=
  (items.find? fun item => item.object = id).map (·.payload)

section Discipline

variable (jobs : τ → Job ι β δ)

/-- Entries are for what their boats carry. -/
def Loads (id : ι) (b : Blob τ β δ) : Prop :=
  ∃ e, b = .entry e ∧ cargo (jobs e.txn).items id = some e.payload

/-- What a task does besides noting its locks and committing. -/
def Plain : NodeOp (Key ι τ) (Blob τ β δ) (Note ι τ β) → Prop
  | .store (.create (.log id _) b) => Loads jobs id b
  | .store (.create (.outcome _) b) => b = .verdict false
  | .store (.put key _) => ∃ txn id, key = .staging txn id
  | .note (.prewritten _ _ _) => False
  | _ => True

/-- A boat notes its locks, and commits once none is missing. -/
def Proper (who : τ) (need : List ι) (o : NodeOp (Key ι τ) (Blob τ β δ) (Note ι τ β)) : Prop :=
  Plain jobs o ∨ (∃ id seq, o = .note (.prewritten who id seq)) ∨
    o = .store (.create (.outcome who) (.verdict true)) ∧ need = []

/-- The objects whose locks are still to be noted. -/
def left (need : List ι) : NodeOp (Key ι τ) (Blob τ β δ) (Note ι τ β) → List ι
  | .note (.prewritten _ id _) => need.filter (· ≠ id)
  | _ => need

def Orderly (who : τ) : NotedTask ι τ β δ α → List ι → Prop
  | .ret _, _ => True
  | .call o k, need => Proper jobs who need o ∧ ∀ r, Orderly who (k r) (left need o)

variable {jobs} {who : τ} {need : List ι}

theorem Plain.left_eq {o : NodeOp (Key ι τ) (Blob τ β δ) (Note ι τ β)} (h : Plain jobs o) :
    left need o = need := by
  unfold left
  split
  · exact h.elim
  · rfl

theorem plain_of_isRead {o : NodeOp (Key ι τ) (Blob τ β δ) (Note ι τ β)} (h : o.IsRead) :
    Plain jobs o := by
  obtain (_ | _ | _ | _ | _) | _ | _ | _ := o
  all_goals first
    | exact h.elim
    | trivial

/-- Plain operations first, and then what is in order. -/
theorem orderly_bind {p : NotedTask ι τ β δ α} {f : α → NotedTask ι τ β δ α'}
    (hp : p.Only (Plain jobs)) (hf : ∀ a, Orderly jobs who (f a) need) :
    Orderly jobs who (p.bind f) need := by
  induction p with
  | ret a => exact hf a
  | call o k ih =>
    refine ⟨.inl hp.1, fun r => ?_⟩
    rw [hp.1.left_eq]
    exact ih r (hp.2 r)

/-- Nothing is done at the end. -/
theorem orderly_finish {p : NotedTask ι τ β δ α} {a : α'} (hp : Orderly jobs who p need) :
    Orderly jobs who (p.bind fun _ => .ret a) need := by
  induction p generalizing need with
  | ret _ => trivial
  | call o k ih => exact ⟨hp.1, fun r => ih r (hp.2 r)⟩

theorem orderly_plain {p : NotedTask ι τ β δ α} (hp : p.Only (Plain jobs)) :
    Orderly jobs who p need := by
  induction p with
  | ret a => trivial
  | call o k ih =>
    refine ⟨.inl hp.1, fun r => ?_⟩
    rw [hp.1.left_eq]
    exact ih r (hp.2 r)

omit [LinearOrder ι] in
theorem bind_assoc {α'' : Type} (p : NotedTask ι τ β δ α) (f : α → NotedTask ι τ β δ α')
    (g : α' → NotedTask ι τ β δ α'') : (p.bind f).bind g = p.bind fun a => (f a).bind g := by
  induction p with
  | ret a => rfl
  | call o k ih => exact congrArg (Prog.call o) (funext ih)

theorem onlyPlain_get (key : Key ι τ) :
    (Store.get key : NotedTry ι τ β δ _).Only (Plain jobs) := ⟨trivial, fun _ => trivial⟩

theorem onlyPlain_outcome (txn : τ) :
    (outcome txn : NotedTry ι τ β δ _).Only (Plain jobs) :=
  (onlyReads_outcome txn).mono fun _ => plain_of_isRead

theorem onlyPlain_committed (txn : τ) :
    (committed txn : NotedTask ι τ β δ Bool).Only (Plain jobs) :=
  (onlyReads_committed txn).mono fun _ => plain_of_isRead

theorem onlyPlain_foldCommitted (M : Images β δ) (id : ι) :
    (foldCommitted M id : NotedTry ι τ β δ _).Only (Plain jobs) :=
  (onlyReads_foldCommitted M id).mono fun _ => plain_of_isRead

theorem onlyPlain_stageAll (txn : τ) (items : List (ShipItem ι β δ)) :
    (stageAll txn items : NotedTask ι τ β δ _).Only (Plain jobs) := by
  induction items with
  | nil => trivial
  | cons item items ih =>
    refine Prog.Only.bind ⟨⟨_, _, rfl⟩, fun _ => trivial⟩ fun r => ?_
    refine ih.bind fun err => ?_
    split <;> trivial

theorem onlyPlain_unstageAll (txn : τ) (items : List (ShipItem ι β δ)) :
    (unstageAll txn items : NotedTask ι τ β δ Unit).Only (Plain jobs) := by
  induction items with
  | nil => trivial
  | cons item items ih => exact Prog.Only.bind ⟨trivial, fun _ => trivial⟩ fun _ => ih

theorem onlyPlain_gate : (gate : NotedTask ι τ β δ _).Only (Plain jobs) := by
  refine Prog.Only.bind ⟨trivial, fun _ => trivial⟩ fun held => ?_
  split
  · exact Prog.Only.bind ⟨trivial, fun _ => trivial⟩ fun _ => trivial
  · trivial

theorem onlyPlain_snapshotRegresses (Y : Yard β δ) (id : ι) (p : LogPayload β δ) :
    (snapshotRegresses Y id p : NotedTask ι τ β δ Bool).Only (Plain jobs) := by
  cases p with
  | snapshot b =>
    refine (onlyPlain_foldCommitted Y.images id).bind fun r => ?_
    split <;> trivial
  | delta d => trivial

theorem onlyPlain_abortTxn (txn : τ) :
    (abortTxn txn : NotedTry ι τ β δ Bool).Only (Plain jobs) := by
  refine Prog.Only.attempt ⟨rfl, fun _ => trivial⟩ fun created => ?_
  split
  · trivial
  · exact (onlyPlain_outcome txn).attempt fun _ => trivial

theorem onlyPlain_compact (M : Images β δ) (id : ι) (keep : Nat) :
    (compact M id keep : NotedTry ι τ β δ Unit).Only (Plain jobs) := by
  refine (onlyPlain_foldCommitted M id).attempt fun _ => ?_
  refine ((onlyReads_readBase M id).mono fun _ => plain_of_isRead).attempt fun _ => ?_
  dsimp only
  split
  · trivial
  · exact Prog.Only.attempt ⟨trivial, fun _ => trivial⟩ fun _ => trivial

theorem onlyPlain_durableFolds (M : Images β δ) (reader : τ) (ids : List ι)
    (conns : List (ι × β × Nat)) :
    (durableFolds M reader ids conns : NotedTry ι τ β δ _).Only (Plain jobs) := by
  induction ids generalizing conns with
  | nil => trivial
  | cons id ids ih =>
    refine Prog.Only.bind ⟨trivial, fun _ => trivial⟩ fun _ => ?_
    refine (onlyPlain_foldCommitted M id).attempt fun _ => ?_
    exact Prog.Only.bind ⟨trivial, fun _ => trivial⟩ fun _ => ih _

theorem onlyPlain_compactAll (M : Images β δ) (ids : List ι) :
    (compactAll M ids : NotedTask ι τ β δ Unit).Only (Plain jobs) := by
  induction ids with
  | nil => trivial
  | cons id ids ih => exact (onlyPlain_compact M id _).bind fun _ => ih

theorem onlyPlain_shipped (Y : Yard β δ) (txn : τ) (objects : List ι) :
    (shipped Y txn objects : NotedTask ι τ β δ _).Only (Plain jobs) := by
  refine Prog.Only.bind ⟨trivial, fun _ => trivial⟩ fun _ => ?_
  refine Prog.Only.bind ⟨trivial, fun _ => trivial⟩ fun held => ?_
  refine Prog.Only.bind ?_ fun _ => trivial
  split
  · exact onlyPlain_compactAll ..
  · trivial

variable [DecidableEq τ]

theorem onlyPlain_deleteIfTxn (key : Key ι τ) (txn : τ) :
    (deleteIfTxn key txn : NotedTry ι τ β δ Unit).Only (Plain jobs) := by
  refine (onlyPlain_get key).attempt fun b => ?_
  split
  · split
    · exact ⟨trivial, fun _ => trivial⟩
    · trivial
  · trivial

theorem onlyPlain_takeSlot {id : ι} {e : LogEntry τ β δ}
    (he : cargo (jobs e.txn).items id = some e.payload) (txn : τ) (seq nowMs ttlMs tries : Nat) :
    (takeSlot id txn e seq nowMs ttlMs tries : NotedTry ι τ β δ _).Only (Plain jobs) := by
  induction tries with
  | zero => trivial
  | succ tries ih =>
    rw [takeSlot]
    refine Prog.Only.attempt ⟨⟨e, rfl, he⟩, fun _ => trivial⟩ fun created => ?_
    split
    · trivial
    refine (onlyPlain_get _).attempt fun existing => ?_
    split
    · exact ih
    split
    · trivial
    split
    · trivial
    refine (onlyPlain_outcome _).attempt fun verdict => ?_
    split
    · trivial
    · exact (onlyPlain_deleteIfTxn _ _).attempt fun _ => ih
    split
    · trivial
    refine (onlyPlain_abortTxn _).attempt fun won => ?_
    split
    · exact (onlyPlain_deleteIfTxn _ _).attempt fun _ => ih
    · trivial

theorem onlyPlain_prewrite (M : Images β δ) {id : ι} {e : LogEntry τ β δ}
    (he : cargo (jobs e.txn).items id = some e.payload) (txn : τ) (expected nowMs ttlMs : Nat) :
    (prewrite M id txn e expected nowMs ttlMs : NotedTry ι τ β δ _).Only (Plain jobs) := by
  refine ((onlyReads_committedSeq M id).mono fun _ => plain_of_isRead).attempt fun seq => ?_
  split
  · trivial
  · exact onlyPlain_takeSlot he ..

theorem onlyPlain_clearAll (txn : τ) (prewritten : List (ι × Nat)) :
    (clearAll txn prewritten : NotedTask ι τ β δ Unit).Only (Plain jobs) := by
  induction prewritten with
  | nil => trivial
  | cons slot rest ih =>
    refine Prog.Only.bind ?_ fun _ => ih
    refine (onlyPlain_committed txn).bind fun c => ?_
    split
    · trivial
    · exact onlyPlain_deleteIfTxn ..

theorem onlyPlain_shipFailed (txn : τ) (items : List (ShipItem ι β δ)) (inline : Bool)
    (prewritten : List (ι × Nat)) (err : ShipError ι) (rebased : Option ι) :
    (shipFailed txn items inline prewritten err rebased : NotedTask ι τ β δ _).Only
      (Plain jobs) := by
  refine Prog.Only.bind ⟨trivial, fun _ => trivial⟩ fun _ => ?_
  refine (onlyPlain_clearAll txn prewritten).bind fun _ => ?_
  refine Prog.Only.bind ?_ fun _ => ?_
  · split
    · trivial
    · exact onlyPlain_unstageAll ..
  · exact Prog.Only.bind ⟨trivial, fun _ => trivial⟩ fun _ => trivial

/-- The prewrites note every lock, or the boat gives up. -/
theorem orderly_prewriteAll (Y : Yard β δ) (born : Nat) {items : List (ShipItem ι β δ)}
    (hcargo : ∀ item ∈ items, cargo (jobs who).items item.object = some item.payload)
    {f : Prewrites ι → NotedTask ι τ β δ α}
    (hfail : ∀ p, p.err ≠ none → (f p).Only (Plain jobs))
    (hdone : ∀ p, p.err = none →
      Orderly jobs who (f p) (need.filter fun id => id ∉ items.map (·.object)))
    (done : List (ι × Nat)) :
    Orderly jobs who ((prewriteAll Y who born items done).bind f) need := by
  induction items generalizing done need with
  | nil =>
    have hall : need.filter (fun id => id ∉ ([] : List (ShipItem ι β δ)).map (·.object)) = need :=
      List.filter_eq_self.mpr fun _ _ => by simp
    rw [hall] at hdone
    exact hdone _ rfl
  | cons item items ih =>
    rw [prewriteAll, bind_assoc]
    refine orderly_bind (onlyPlain_snapshotRegresses ..) fun regressed => ?_
    split
    · exact orderly_plain (hfail _ (Option.some_ne_none _))
    rw [bind_assoc]
    refine orderly_bind (onlyPlain_prewrite Y.images (hcargo item List.mem_cons_self) ..)
      fun r => ?_
    split
    · next seq =>
      refine ⟨.inr (.inl ⟨_, _, rfl⟩), fun _ => ?_⟩
      refine ih (fun item' hitem => hcargo item' (List.mem_cons_of_mem _ hitem)) (fun p hp => ?_) _
      have hrest : (left need (.note (.prewritten who item.object seq) :
          NodeOp (Key ι τ) (Blob τ β δ) (Note ι τ β))).filter
            (fun id => id ∉ items.map (·.object)) =
          need.filter fun id => id ∉ (item :: items).map (·.object) := by
        rw [left, List.filter_filter]
        refine List.filter_congr fun id _ => ?_
        by_cases h : id = item.object <;> simp [h]
      rw [hrest]
      exact hdone p hp
    · exact orderly_plain (hfail _ (Option.some_ne_none _))
    · exact orderly_plain (hfail _ (Option.some_ne_none _))

theorem orderly_shipTask (Y : Yard β δ) {items : List (ShipItem ι β δ)}
    (hcargo : ∀ item ∈ items, cargo (jobs who).items item.object = some item.payload) :
    Orderly jobs who (shipTask Y who items) (items.map (·.object)) := by
  unfold shipTask
  refine orderly_bind ?_ fun staged => ?_
  · split
    · trivial
    · exact onlyPlain_stageAll ..
  split
  · exact orderly_plain (onlyPlain_shipFailed ..)
  refine orderly_bind onlyPlain_gate fun err => ?_
  split
  · exact orderly_plain (onlyPlain_shipFailed ..)
  refine orderly_bind (p := now) ⟨trivial, fun _ => trivial⟩ fun born => ?_
  refine orderly_prewriteAll Y born (fun item hitem => hcargo item ?_) (fun p hp => ?_)
    (fun p hp => ?_) []
  · exact (List.perm_insertionSort _ _).mem_iff.mp hitem
  · cases herr : p.err with
    | none => exact absurd herr hp
    | some err => exact onlyPlain_shipFailed ..
  · have hnone : (items.map (·.object)).filter (fun id =>
        id ∉ (items.insertionSort fun a b => a.object ≤ b.object).map (·.object)) = [] := by
      refine List.filter_eq_nil_iff.mpr fun id hid => ?_
      obtain ⟨item, hitem, rfl⟩ := List.mem_map.mp hid
      have hmem : item.object ∈
          (items.insertionSort fun a b => a.object ≤ b.object).map (·.object) :=
        List.mem_map_of_mem ((List.perm_insertionSort _ _).mem_iff.mpr hitem)
      simpa using hmem
    rw [hnone, hp]
    refine ⟨.inr (.inr ⟨rfl, rfl⟩), fun r => ?_⟩
    refine orderly_plain ?_
    rcases r with _ | created
    · exact onlyPlain_shipFailed ..
    cases created with
    | true => exact onlyPlain_shipped ..
    | false =>
      have hrest : ((committed who).bind fun c => .ret (.ok c) : NotedTry ι τ β δ Bool).Only
          (Plain jobs) := (onlyPlain_committed who).bind fun _ => trivial
      refine hrest.bind fun r => ?_
      split
      · exact onlyPlain_shipped ..
      · exact onlyPlain_shipFailed ..
      · exact onlyPlain_shipFailed ..

theorem cargo_of_mem {items : List (ShipItem ι β δ)} (h : (items.map (·.object)).Nodup)
    {item : ShipItem ι β δ} (hitem : item ∈ items) :
    cargo items item.object = some item.payload := by
  unfold cargo
  induction items with
  | nil => cases hitem
  | cons first items ih =>
    rw [List.map_cons, List.nodup_cons] at h
    by_cases heq : first.object = item.object
    · rcases List.mem_cons.mp hitem with rfl | hrest
      · simp
      · exact absurd (heq ▸ List.mem_map_of_mem hrest) h.1
    · rcases List.mem_cons.mp hitem with rfl | hrest
      · exact absurd rfl heq
      · rw [List.find?_cons_of_neg (by simpa using heq)]
        exact ih h.2 hrest

theorem orderly_job (Y : Yard β δ) (h : ((jobs who).items.map (·.object)).Nodup) :
    Orderly jobs who ((jobs who).prog Y who) ((jobs who).items.map (·.object)) := by
  have hcargo : ∀ item ∈ (jobs who).items,
      cargo (jobs who).items item.object = some item.payload := fun item => cargo_of_mem h
  cases hjob : jobs who with
  | ship items =>
    have hitems : ∀ item ∈ items, cargo (jobs who).items item.object = some item.payload := by
      rw [hjob] at hcargo ⊢
      exact hcargo
    exact orderly_finish (orderly_shipTask Y hitems)
  | compact id keep =>
    exact orderly_plain ((onlyPlain_compact Y.images id keep).bind fun _ => trivial)
  | read ids =>
    refine orderly_plain (Prog.Only.bind ?_ fun _ => trivial)
    refine (onlyPlain_durableFolds Y.images who ids []).attempt fun _ => ?_
    exact Prog.Only.bind ⟨trivial, fun _ => trivial⟩ fun _ => trivial

end Discipline

section Steps

variable [DecidableEq τ] {jobs : τ → Job ι β δ} {who : τ} {need : List ι} {w w' : LogWorld ι τ β δ}
  {o : NodeOp (Key ι τ) (Blob τ β δ) (Note ι τ β)}

def Noted (w : LogWorld ι τ β δ) (who : τ) (id : ι) : Prop :=
  ∃ seq, Note.prewritten who id seq ∈ w.notes

theorem notes_exec (e : Env) (o : NodeOp (Key ι τ) (Blob τ β δ) (Note ι τ β))
    {n : Note ι τ β} (h : n ∈ w.notes) : n ∈ (reliable.exec e o w).2.notes := by
  cases o with
  | store o => exact h
  | ask q => exact h
  | now => exact h
  | note n' => exact List.mem_cons_of_mem _ h

theorem Noted.exec {id : ι} (h : Noted w who id) (e : Env) :
    Noted (reliable.exec e o w).2 who id := by
  obtain ⟨seq, hn⟩ := h
  exact ⟨seq, notes_exec e o hn⟩

/-- An entry that a task places is for what the entry's boat carries. -/
theorem entryAt_exec (h : Proper jobs who need o) (e : Env) {id : ι} {seq : Nat}
    {x : LogEntry τ β δ} (hx : entryAt (reliable.exec e o w).2 id seq = some x) :
    entryAt w id seq = some x ∨ cargo (jobs x.txn).items id = some x.payload := by
  cases o with
  | ask q => exact .inl hx
  | now => exact .inl hx
  | note n => exact .inl hx
  | store o =>
    change entryAt (w.effect o) id seq = some x at hx
    cases o with
    | get key => exact .inl hx
    | list pre => exact .inl hx
    | put key b =>
      obtain ⟨txn, id', rfl⟩ | ⟨id', seq', hnote⟩ | ⟨hcommit, _⟩ := h
      · left
        simpa [entryAt, World.get_put] using hx
      · cases hnote
      · cases hcommit
    | delete key =>
      left
      unfold entryAt at hx ⊢
      rw [World.get_delete] at hx
      split at hx
      · cases hx
      · exact hx
    | create key b =>
      unfold entryAt at hx
      rw [World.get_create] at hx
      split at hx
      · next hnew =>
        right
        obtain ⟨rfl, _⟩ := hnew
        obtain ⟨e', rfl, hcargo⟩ | ⟨id', seq', hnote⟩ | ⟨hcommit, _⟩ := h
        · cases hx
          exact hcargo
        · cases hnote
        · cases hcommit
      · exact .inl hx

/-- The transaction that an operation puts down as committed. -/
def commitsTxn (w : LogWorld ι τ β δ) : NodeOp (Key ι τ) (Blob τ β δ) (Note ι τ β) → Option τ
  | .store (.create (.outcome txn) (.verdict true)) =>
    if verdict w txn = none then some txn else none
  | _ => none

theorem commitsTxn_eq_some {txn : τ} (h : commitsTxn w o = some txn) :
    o = .store (.create (.outcome txn) (.verdict true)) ∧ verdict w txn = none := by
  unfold commitsTxn at h
  split at h
  · split at h
    · next hnone =>
      cases h
      exact ⟨rfl, hnone⟩
    · cases h
  · cases h

/-- A transaction commits by its outcome's creation only. -/
theorem verdict_exec (h : Proper jobs who need o) (e : Env) {txn : τ}
    (hv : verdict (reliable.exec e o w).2 txn = some true) :
    verdict w txn = some true ∨ commitsTxn w o = some txn := by
  cases o with
  | ask q => exact .inl hv
  | now => exact .inl hv
  | note n => exact .inl hv
  | store o =>
    change verdict (w.effect o) txn = some true at hv
    cases o with
    | get key => exact .inl hv
    | list pre => exact .inl hv
    | put key b =>
      obtain ⟨txn', id', rfl⟩ | ⟨id', seq', hnote⟩ | ⟨hcommit, _⟩ := h
      · left
        simpa [verdict, World.get_put] using hv
      · cases hnote
      · cases hcommit
    | delete key =>
      left
      unfold verdict at hv ⊢
      rw [World.get_delete] at hv
      split at hv
      · cases hv
      · exact hv
    | create key b =>
      unfold verdict at hv
      rw [World.get_create] at hv
      split at hv
      · next hnew =>
        right
        obtain ⟨rfl, hnone⟩ := hnew
        obtain hplain | ⟨id', seq', hnote⟩ | ⟨hcommit, _⟩ := h
        · rw [show b = .verdict false from hplain] at hv
          cases hv
        · cases hnote
        · cases hcommit
          simp [commitsTxn, verdict, hnone]
      · exact .inl hv

/-- What the tasks have done so far is in order, and what they still do. -/
structure Disciplined (jobs : τ → Job ι β δ) (c : JobConfig ι τ β δ) : Prop where
  tasks : ∀ who, ∃ need, Orderly jobs who (c.procs who).prog need ∧
    ∀ id, (cargo (jobs who).items id).isSome → id ∈ need ∨ Noted c.shared who id
  loaded : ∀ id seq e, entryAt c.shared id seq = some e →
    cargo (jobs e.txn).items id = some e.payload
  noted : ∀ who, verdict c.shared who = some true →
    ∀ id, (cargo (jobs who).items id).isSome → Noted c.shared who id

theorem disciplined_start (Y : Yard β δ)
    (hdistinct : ∀ who, ((jobs who).items.map (·.object)).Nodup) :
    Disciplined jobs (startJobs Y jobs) where
  tasks who := by
    refine ⟨_, orderly_job Y (hdistinct who), fun id hid => .inl ?_⟩
    obtain ⟨p, hp⟩ := Option.isSome_iff_exists.mp hid
    obtain ⟨item, hfind, _⟩ := Option.map_eq_some_iff.mp hp
    have hobject : item.object = id := by simpa using List.find?_some hfind
    exact hobject ▸ List.mem_map_of_mem (List.mem_of_find?_eq_some hfind)
  loaded _ _ _ h := by cases h
  noted _ h := by cases h

theorem disciplined_step {c : JobConfig ι τ β δ} (h : Disciplined jobs c) (who : τ) (e : Env) :
    Disciplined jobs (c.step reliable who e) := by
  cases hp : (c.procs who).prog with
  | ret a => simpa only [Config.step, hp] using h
  | call o k =>
    obtain ⟨need, horderly, hneed⟩ := h.tasks who
    rw [hp] at horderly
    obtain ⟨hproper, hrest⟩ := horderly
    simp only [Config.step, hp]
    refine ⟨fun other => ?_, fun id seq x hx => ?_, fun txn hv id hid => ?_⟩
    · by_cases hother : other = who
      · subst hother
        refine ⟨left need o, by simpa using hrest _, fun id hid => ?_⟩
        rcases hneed id hid with hmissing | hnoted
        · by_cases hleft : id ∈ left need o
          · exact .inl hleft
          · right
            obtain hplain | ⟨id', seq', rfl⟩ | ⟨rfl, _⟩ := hproper
            · exact absurd (hplain.left_eq ▸ hmissing) hleft
            · by_cases hid' : id = id'
              · subst hid'
                exact ⟨seq', List.mem_cons_self⟩
              · exact absurd (List.mem_filter.mpr ⟨hmissing, by simpa using hid'⟩) hleft
            · exact absurd hmissing hleft
        · exact .inr (hnoted.exec e)
      · obtain ⟨need', horderly', hneed'⟩ := h.tasks other
        refine ⟨need', ?_, fun id hid => (hneed' id hid).imp_right fun hn => hn.exec e⟩
        dsimp only
        rw [Function.update_of_ne hother]
        exact horderly'
    · rcases entryAt_exec hproper e hx with hold | hcargo
      · exact h.loaded id seq x hold
      · exact hcargo
    · rcases verdict_exec hproper e hv with hold | hcommit
      · exact (h.noted txn hold id hid).exec e
      · obtain ⟨rfl, _⟩ := commitsTxn_eq_some hcommit
        obtain hplain | ⟨id', seq', hnote⟩ | ⟨heq, rfl⟩ := hproper
        · cases hplain
        · cases hnote
        · cases heq
          rcases hneed id hid with hmissing | hnoted
          · cases hmissing
          · exact hnoted.exec e

end Steps

end Serial

end Fafo
