import Mathlib.Data.List.Basic
import Mathlib.Tactic.SplitIfs
import Mathlib.Algebra.Group.Nat.Defs
import Fafo.Library.Runs

/-! TEMP state of the objects that a worker keeps live under the log engine. -/
namespace Fafo.Ephemeral

/-- A SQLite connection: the main database and what is in TEMP tables. -/
structure Conn (M T : Type) where
  main : M
  temp : T

/-- Opening a connection starts with no TEMP tables. -/
def Conn.fresh {M T : Type} [EmptyCollection T] (image : M) : Conn M T := ⟨image, ∅⟩

/-- A long poll: its query fails, fires, or does not fire yet. -/
structure Poll (M T : Type) where
  durable : Bool
  query : Conn M T → Option Bool

/-- What a write transaction commits: an object's main database if it writes there, and its TEMP
tables. -/
structure Written (M T : Type) where
  main : String → Option M
  temp : String → T

/-- A write transaction; without a result an op has failed and all is rolled back. -/
structure Txn (M T : Type) where
  participants : List String
  ops : (String → Option (Conn M T)) → Option (Written M T)

/-- A boat in flight: objects with their snapshots and expected seqs. -/
structure Boat (M : Type) where
  items : List (String × M × Nat)
  landed : Bool := false

/-- `log` has each object's committed fold and its seq. For the record: the TEMP state that the last
transaction on a live object left, and what each transaction and each check of a poll found beside
it. -/
structure Worker (M T : Type) where
  log : String → M × Nat
  objects : String → Option (Conn M T)
  logSeq : String → Nat
  dirty : String → Bool
  inflight : Option (Boat M)
  polls : String → List (Poll M T)
  left : String → T
  found : List (T × T)

variable {M T : Type} [EmptyCollection T]

/-- System objects begin with an underscore. -/
def isSystem (object : String) : Bool := "_".toList.isPrefixOf object.toList

namespace Worker

def unshipped (w : Worker M T) (object : String) : Bool :=
  w.dirty object || match w.inflight with
    | some boat => decide (object ∈ boat.items.map Prod.fst)
    | none => false

/-- A fetched image becomes live. -/
def materialize (w : Worker M T) (object : String) (image : M) (seq : Nat) : Worker M T :=
  { w with
    objects := Function.update w.objects object (some (.fresh image))
    logSeq := Function.update w.logSeq object seq }

/-- Whether the live object was behind the log and has been brought up to it; `works` is whether the
log folds and the image can be made live. -/
def refreshIfStale (w : Worker M T) (works : Bool) (object : String) : Bool × Worker M T :=
  if w.unshipped object then (false, w) else
  if !works then (false, w) else
  let (image, seq) := w.log object
  if seq ≤ w.logSeq object then (false, w) else (true, w.materialize object image seq)

def refoldCleanBase (w : Worker M T) (works : Bool) (object : String) : Worker M T :=
  if isSystem object then w else
  if w.unshipped object || (w.objects object).isNone then w else
  if !works then w else
  let (image, seq) := w.log object
  w.materialize object image seq

/-- Before a transaction runs its participants are brought up to the log. -/
def prepare (w : Worker M T) (readOnly : Bool) (works : String → Bool)
    (participants : List String) : Worker M T :=
  participants.foldl (fun w object =>
    if readOnly then (w.refreshIfStale (works object) object).2
    else w.refoldCleanBase (works object) object) w

/-- Every participant is live. -/
def ready (w : Worker M T) (participants : List String) : Bool :=
  participants.all fun object => (w.objects object).isSome

/-- An object's TEMP state is looked at. -/
def find (w : Worker M T) (object : String) : Worker M T :=
  match w.objects object with
  | some conn => { w with found := (w.left object, conn.temp) :: w.found }
  | none => w

/-- `take_fired_polls`: the object's polls of one durability class are checked. -/
def takeFiredPolls (w : Worker M T) (durable : Bool) (object : String) : Worker M T :=
  match w.objects object with
  | none => w
  | some conn =>
    let checked := (w.polls object).filter fun p => p.durable == durable
    let keep := (w.polls object).filter fun p =>
      p.durable != durable || p.query conn == some false
    { w with
      polls := Function.update w.polls object keep
      found := checked.map (fun _ => (w.left object, conn.temp)) ++ w.found }

/-- What a write transaction has committed. -/
def commit (w : Worker M T) (participants : List String) (written : Written M T) : Worker M T :=
  { w with
    objects := fun object =>
      if object ∈ participants then
        (w.objects object).map fun conn =>
          ⟨(written.main object).getD conn.main, written.temp object⟩
      else w.objects object
    dirty := fun object =>
      w.dirty object || (decide (object ∈ participants) && (written.main object).isSome)
    left := fun object => if object ∈ participants then written.temp object else w.left object }

/-- `run_and_complete` for a write. -/
def write (w : Worker M T) (txn : Txn M T) (works : String → Bool) : Worker M T :=
  if !w.ready txn.participants then w else
  let w := txn.participants.foldl find (w.prepare false works txn.participants)
  match txn.ops w.objects with
  | none => w
  | some written =>
    txn.participants.foldl (takeFiredPolls · false) (w.commit txn.participants written)

/-- `run_and_complete` for a read. -/
def read (w : Worker M T) (participants : List String) (works : String → Bool) : Worker M T :=
  if !w.ready participants then w else
  participants.foldl find (w.prepare true works participants)

def park (w : Worker M T) (object : String) (p : Poll M T) : Worker M T :=
  { w with polls := Function.update w.polls object (w.polls object ++ [p]) }

/-- Does the poll's query fail, fire or not fire on the live connection? -/
def queried (w : Worker M T) (object : String) (p : Poll M T) : Option Bool :=
  (w.objects object).bind p.query

/-- `refresh_stale_poll`: the query is run again if the object had to be brought up to the log. -/
def refreshStalePoll (w : Worker M T) (object : String) (p : Poll M T) (works : Bool) :
    Worker M T :=
  match w.refreshIfStale works object with
  | (false, w) => w.park object p
  | (true, w) =>
    let w := w.find object
    if w.queried object p = some true then w else w.park object p

/-- `run_and_complete` for a poll; `again` is for the refresh of a durable one. -/
def poll (w : Worker M T) (object : String) (p : Poll M T) (works again : Bool) : Worker M T :=
  if !w.ready [object] then w else
  let w := (w.prepare true (fun _ => works) [object]).find object
  match w.queried object p with
  | none => w
  | some fires =>
    if !(p.durable && w.unshipped object) && fires then w
    else if p.durable && !w.unshipped object then w.refreshStalePoll object p again
    else w.park object p

/-- A cold object's fetch comes back. -/
def activate (w : Worker M T) (object : String) : Worker M T :=
  match w.objects object with
  | some _ => w
  | none =>
    let (image, seq) := w.log object
    { w.materialize object image (seq % 2 ^ 32) with left := Function.update w.left object ∅ }

/-- `maybe_launch`, with the objects that the boat's cut has come to. -/
def launch (w : Worker M T) (boat : List String) : Worker M T :=
  match w.inflight with
  | some _ => w
  | none =>
    if boat.all fun object => w.dirty object && (w.objects object).isSome then
      let items := boat.filterMap fun object =>
        (w.objects object).map fun conn => (object, conn.main, w.logSeq object)
      let w := boat.foldl (takeFiredPolls · true)
        { w with dirty := fun object => w.dirty object && decide (object ∉ boat) }
      { w with inflight := some { items } }
    else w

/-- The boat's commit lands: each snapshot is the log's next entry. -/
def land (w : Worker M T) : Worker M T :=
  match w.inflight with
  | none => w
  | some boat =>
    { w with
      log := fun object =>
        match boat.items.find? fun item => item.1 == object with
        | some (_, image, seq) => (image, seq + 1)
        | none => w.log object
      inflight := some { boat with landed := true } }

/-- `on_ship_done` for a boat that has landed. -/
def shipDone (w : Worker M T) : Worker M T :=
  match w.inflight with
  | none => w
  | some boat =>
    if boat.landed then
      let objects := boat.items.map Prod.fst
      let w := { w with
        inflight := none
        logSeq := fun object =>
          if object ∈ objects then w.logSeq object + 1 else w.logSeq object }
      (objects.filter fun object => !w.dirty object).foldl (takeFiredPolls · true) w
    else w

end Worker

/-- What happens at a worker without a shed, a migration, a revert or a commit of a peer. -/
inductive Move (M T : Type) where
  | activate (object : String)
  | write (txn : Txn M T) (works : String → Bool)
  | read (participants : List String) (works : String → Bool)
  | poll (object : String) (p : Poll M T) (works again : Bool)
  | launch (boat : List String)
  | land
  | shipDone

def Worker.step (w : Worker M T) : Move M T → Worker M T
  | .activate object => w.activate object
  | .write txn works => w.write txn works
  | .read participants works => w.read participants works
  | .poll object p works again => w.poll object p works again
  | .launch boat => w.launch boat
  | .land => w.land
  | .shipDone => w.shipDone

/-- A worker over a store's logs, with nothing live. -/
def start (log : String → M × Nat) : Worker M T where
  log
  objects _ := none
  logSeq _ := 0
  dirty _ := false
  inflight := none
  polls _ := []
  left _ := ∅
  found := []

/-- Every transaction and poll has found the TEMP state that the last transaction left. -/
def Remembered (w : Worker M T) : Prop := ∀ pair ∈ w.found, pair.2 = pair.1

/-- A read brings the object up to the log. -/
def Worker.refreshed (w : Worker M T) (works : Bool) (object : String) : Bool :=
  !w.unshipped object && works && decide (w.logSeq object < (w.log object).2)

/-- A write rebuilds the object from the log. -/
def Worker.refolded (w : Worker M T) (works : Bool) (object : String) : Bool :=
  !isSystem object && !w.unshipped object && (w.objects object).isSome && works

/-- Whenever a participant's connection is replaced, its TEMP tables are empty. -/
def Blank (w : Worker M T) : Move M T → Prop
  | .write txn works => w.ready txn.participants = true → ∀ object ∈ txn.participants,
    w.refolded (works object) object = true → w.left object = ∅
  | .read participants works => w.ready participants = true → ∀ object ∈ participants,
    w.refreshed (works object) object = true → w.left object = ∅
  | .poll object p works again => w.ready [object] = true →
    w.refreshed works object = true ∨
      (p.durable = true ∧ w.queried object p = some false ∧ w.refreshed again object = true) →
    w.left object = ∅
  | _ => True

/-- Every live connection has the TEMP state that the last transaction left. -/
structure Sound (w : Worker M T) : Prop where
  temp : ∀ object conn, w.objects object = some conn → conn.temp = w.left object
  found : Remembered w

variable {w : Worker M T}

section

omit [EmptyCollection T]

theorem Sound.find (h : Sound w) (object : String) : Sound (w.find object) := by
  unfold Worker.find
  cases hconn : w.objects object with
  | none => exact h
  | some conn =>
    refine ⟨h.temp, fun pair hmem => ?_⟩
    rcases List.mem_cons.mp hmem with rfl | hmem
    · exact h.temp object conn hconn
    · exact h.found pair hmem

theorem Sound.takeFiredPolls (h : Sound w) (durable : Bool) (object : String) :
    Sound (w.takeFiredPolls durable object) := by
  unfold Worker.takeFiredPolls
  cases hconn : w.objects object with
  | none => exact h
  | some conn =>
    refine ⟨h.temp, fun pair hmem => ?_⟩
    rcases List.mem_append.mp hmem with hmem | hmem
    · obtain ⟨_, _, rfl⟩ := List.mem_map.mp hmem
      exact h.temp object conn hconn
    · exact h.found pair hmem

theorem Sound.foldl (h : Sound w) {f : Worker M T → String → Worker M T}
    (hf : ∀ w object, Sound w → Sound (f w object)) (objects : List String) :
    Sound (objects.foldl f w) := by
  induction objects generalizing w with
  | nil => exact h
  | cons object objects ih => exact ih (hf w object h)

end

/-- A connection that held no TEMP state is replaced. -/
theorem Sound.materialize (h : Sound w) {object : String} (hleft : w.left object = ∅) (image : M)
    (seq : Nat) : Sound (w.materialize object image seq) := by
  refine ⟨fun o conn hconn => ?_, h.found⟩
  by_cases ho : o = object
  · subst ho
    obtain rfl : Conn.fresh image = conn := by simpa [Worker.materialize] using hconn
    exact hleft.symm
  · exact h.temp o conn (by simpa [Worker.materialize, ho] using hconn)

theorem refreshIfStale_eq (w : Worker M T) (works : Bool) (object : String) :
    w.refreshIfStale works object = if w.refreshed works object then
        (true, w.materialize object (w.log object).1 (w.log object).2)
      else (false, w) := by
  unfold Worker.refreshIfStale Worker.refreshed
  by_cases hseq : (w.log object).2 ≤ w.logSeq object
  · cases w.unshipped object <;> cases works <;> simp [hseq]
  · cases w.unshipped object <;> cases works <;> simp [hseq, Nat.lt_of_not_le hseq]

theorem refoldCleanBase_eq (w : Worker M T) (works : Bool) (object : String) :
    w.refoldCleanBase works object = if w.refolded works object then
        w.materialize object (w.log object).1 (w.log object).2
      else w := by
  unfold Worker.refoldCleanBase Worker.refolded
  cases isSystem object <;> cases w.unshipped object <;> cases hconn : w.objects object <;>
    cases works <;> simp

/-- The participant's connection is replaced before the transaction runs. -/
def Worker.replaced (w : Worker M T) (readOnly works : Bool) (object : String) : Bool :=
  if readOnly then w.refreshed works object else w.refolded works object

theorem prepare_cons (w : Worker M T) (readOnly : Bool) (works : String → Bool) (object : String)
    (participants : List String) :
    w.prepare readOnly works (object :: participants) =
      (if w.replaced readOnly (works object) object then
        w.materialize object (w.log object).1 (w.log object).2 else w).prepare readOnly works
          participants := by
  rw [Worker.prepare, List.foldl_cons, Worker.prepare, Worker.replaced]
  cases readOnly with
  | false => simp [refoldCleanBase_eq]
  | true =>
    simp only [refreshIfStale_eq, if_true]
    split_ifs <;> rfl

/-- What a materialized object leaves as it is. -/
theorem replaced_materialize {object o : String} (ho : o ≠ object) (image : M) (seq : Nat)
    (readOnly works : Bool) :
    (w.materialize object image seq).replaced readOnly works o = w.replaced readOnly works o := by
  simp [Worker.replaced, Worker.refreshed, Worker.refolded, Worker.materialize, Worker.unshipped,
    ho]

structure Prepared (w w' : Worker M T) (replaced : String → Prop) : Prop where
  left : w'.left = w.left
  found : w'.found = w.found
  kept : ∀ object, ¬ replaced object → w'.objects object = w.objects object
  fresh : ∀ object, replaced object → w'.objects object = some (.fresh (w.log object).1)

/-- Exactly the replaced participants get a fresh connection. -/
theorem prepared (w : Worker M T) (readOnly : Bool) (works : String → Bool)
    (participants : List String) :
    Prepared w (w.prepare readOnly works participants) fun object =>
      object ∈ participants ∧ w.replaced readOnly (works object) object = true := by
  induction participants generalizing w with
  | nil => exact ⟨rfl, rfl, fun _ _ => rfl, fun _ h => nomatch h.1⟩
  | cons object participants ih =>
    rw [prepare_cons]
    cases hreplaced : w.replaced readOnly (works object) object with
    | false =>
      obtain ⟨hleft, hfound, hkept, hfresh⟩ := ih w
      have hmem : ∀ o, w.replaced readOnly (works o) o = true → o ∈ object :: participants →
          o ∈ participants := fun o ho hmem => by
        rcases List.mem_cons.mp hmem with rfl | hmem
        · exact absurd ho (by simp [hreplaced])
        · exact hmem
      refine ⟨hleft, hfound, fun o ho => hkept o fun h => ho ⟨.tail _ h.1, h.2⟩, fun o ho => ?_⟩
      exact hfresh o ⟨hmem o ho.2 ho.1, ho.2⟩
    | true =>
      obtain ⟨hleft, hfound, hkept, hfresh⟩ :=
        ih (w.materialize object (w.log object).1 (w.log object).2)
      refine ⟨hleft, hfound, fun o ho => ?_, fun o ho => ?_⟩
      · have hne : o ≠ object := fun heq => ho ⟨by simp [heq], heq ▸ hreplaced⟩
        refine (hkept o fun h => ho ⟨.tail _ h.1, ?_⟩).trans ?_
        · rw [← replaced_materialize hne]
          exact h.2
        · simp [Worker.materialize, hne]
      · by_cases hne : o = object
        · subst hne
          by_cases hagain : o ∈ participants ∧
              (w.materialize o (w.log o).1 (w.log o).2).replaced readOnly (works o) o = true
          · exact hfresh o hagain
          · exact (hkept o hagain).trans (by simp [Worker.materialize])
        · refine hfresh o ⟨(List.mem_cons.mp ho.1).resolve_left hne, ?_⟩
          rw [replaced_materialize hne]
          exact ho.2

theorem Sound.prepare (h : Sound w) {readOnly : Bool} {works : String → Bool}
    {participants : List String} (hblank : ∀ object ∈ participants,
      w.replaced readOnly (works object) object = true → w.left object = ∅) :
    Sound (w.prepare readOnly works participants) := by
  obtain ⟨hleft, hfound, hkept, hfresh⟩ := prepared w readOnly works participants
  refine ⟨fun object conn hconn => ?_, by rw [Remembered, hfound]; exact h.found⟩
  rw [hleft]
  by_cases hreplaced : object ∈ participants ∧ w.replaced readOnly (works object) object = true
  · rw [hfresh object hreplaced] at hconn
    obtain rfl := Option.some.inj hconn
    exact (hblank object hreplaced.1 hreplaced.2).symm
  · exact h.temp object conn (hkept object hreplaced ▸ hconn)

section

omit [EmptyCollection T]

theorem find_frame (w : Worker M T) (object : String) :
    (w.find object).objects = w.objects ∧ (w.find object).left = w.left ∧
      w.found ⊆ (w.find object).found := by
  unfold Worker.find
  split
  · exact ⟨rfl, rfl, List.subset_cons_self _ _⟩
  · exact ⟨rfl, rfl, List.Subset.refl _⟩

theorem find_eq (w : Worker M T) (object : String) : ∃ found, w.find object = { w with found } := by
  unfold Worker.find
  cases w.objects object with
  | none => exact ⟨w.found, rfl⟩
  | some conn => exact ⟨(w.left object, conn.temp) :: w.found, rfl⟩

/-- Every participant's TEMP state is looked at. -/
theorem find_all (w : Worker M T) (participants : List String) :
    w.found ⊆ (participants.foldl Worker.find w).found ∧
      ∀ object ∈ participants, ∀ conn, w.objects object = some conn →
        (w.left object, conn.temp) ∈ (participants.foldl Worker.find w).found := by
  induction participants generalizing w with
  | nil => exact ⟨List.Subset.refl _, nofun⟩
  | cons object participants ih =>
    obtain ⟨hobjects, hleft, hsub⟩ := find_frame w object
    obtain ⟨hmore, hall⟩ := ih (w.find object)
    refine ⟨List.Subset.trans hsub hmore, fun o ho conn hconn => ?_⟩
    rcases List.mem_cons.mp ho with rfl | ho
    · exact hmore (by simp [Worker.find, hconn])
    · have hpair := hall o ho conn (hobjects ▸ hconn)
      rwa [hleft] at hpair

theorem takeFiredPolls_found (w : Worker M T) (durable : Bool) (objects : List String) :
    w.found ⊆ (objects.foldl (Worker.takeFiredPolls · durable) w).found := by
  induction objects generalizing w with
  | nil => exact List.Subset.refl _
  | cons object objects ih =>
    have hone : w.found ⊆ (w.takeFiredPolls durable object).found := by
      unfold Worker.takeFiredPolls
      split
      · exact List.Subset.refl _
      · exact List.subset_append_right _ _
    exact List.Subset.trans hone (ih _)

end

/-- A connection that is replaced is found without the TEMP state that was left. -/
theorem found_replaced (readOnly : Bool) {works : String → Bool} {participants : List String}
    {object : String} (hmem : object ∈ participants)
    (hreplaced : w.replaced readOnly (works object) object = true) :
    (w.left object, (∅ : T)) ∈
      (participants.foldl Worker.find (w.prepare readOnly works participants)).found := by
  have hprepared := prepared w readOnly works participants
  have hpair := (find_all (w.prepare readOnly works participants) participants).2 object hmem _
    (hprepared.fresh object ⟨hmem, hreplaced⟩)
  rwa [hprepared.left] at hpair

omit [EmptyCollection T] in
theorem Sound.commit (h : Sound w) (participants : List String) (written : Written M T) :
    Sound (w.commit participants written) := by
  refine ⟨fun object conn hconn => ?_, h.found⟩
  unfold Worker.commit at hconn ⊢
  dsimp only at hconn ⊢
  split_ifs at hconn ⊢
  · obtain ⟨_, _, rfl⟩ := Option.map_eq_some_iff.mp hconn
    rfl
  · exact h.temp object conn hconn

theorem sound_write (h : Sound w) {txn : Txn M T} {works : String → Bool}
    (hblank : Blank w (.write txn works)) : Sound (w.write txn works) := by
  unfold Worker.write
  cases hready : w.ready txn.participants with
  | false => exact h
  | true =>
    have hs : Sound (txn.participants.foldl Worker.find
        (w.prepare false works txn.participants)) :=
      (h.prepare (hblank hready)).foldl (fun _ object h => h.find object) _
    simp only [Bool.not_true, Bool.false_eq_true, if_false]
    split
    · exact hs
    · exact (hs.commit _ _).foldl (fun _ object h => h.takeFiredPolls false object) _

theorem sound_read (h : Sound w) {participants : List String} {works : String → Bool}
    (hblank : Blank w (.read participants works)) : Sound (w.read participants works) := by
  unfold Worker.read
  cases hready : w.ready participants with
  | false => exact h
  | true =>
    exact (h.prepare (hblank hready)).foldl (fun _ object h => h.find object) _

theorem prepare_one (w : Worker M T) (works : Bool) (object : String) :
    w.prepare true (fun _ => works) [object] = if w.refreshed works object then
      w.materialize object (w.log object).1 (w.log object).2 else w := by
  rw [prepare_cons]
  rfl

omit [EmptyCollection T] in
theorem Sound.park (h : Sound w) (object : String) (p : Poll M T) : Sound (w.park object p) :=
  ⟨h.temp, h.found⟩

theorem sound_refreshStalePoll (h : Sound w) {object : String} {p : Poll M T} {works : Bool}
    (hblank : w.refreshed works object = true → w.left object = ∅) :
    Sound (w.refreshStalePoll object p works) := by
  unfold Worker.refreshStalePoll
  rw [refreshIfStale_eq]
  cases hrefreshed : w.refreshed works object with
  | false => exact h.park object p
  | true =>
    have hs := (h.materialize (hblank hrefreshed) (w.log object).1 (w.log object).2).find object
    simp only [if_true]
    split
    · exact hs
    · exact hs.park object p

theorem sound_poll (h : Sound w) {object : String} {p : Poll M T} {works again : Bool}
    (hblank : Blank w (.poll object p works again)) : Sound (w.poll object p works again) := by
  unfold Worker.poll
  cases hready : w.ready [object] with
  | false => exact h
  | true =>
    have hblank := hblank hready
    rw [prepare_one]
    simp only [Bool.not_true, Bool.false_eq_true, if_false]
    -- whatever the first refresh does, what it leaves is sound, and so is what the second one does
    have hs : ∀ w' : Worker M T, Sound w' → (p.durable = true → w'.queried object p = some false →
        w'.refreshed again object = true → w'.left object = ∅) →
        Sound (match w'.queried object p with
          | none => w'
          | some fires =>
            if !(p.durable && w'.unshipped object) && fires then w'
            else if p.durable && !w'.unshipped object then w'.refreshStalePoll object p again
            else w'.park object p) := by
      intro w' hw' hagain
      cases hquery : w'.queried object p with
      | none => exact hw'
      | some fires =>
        dsimp only
        split_ifs with hfires hdurable
        · exact hw'
        · simp only [Bool.and_eq_true, Bool.not_eq_true'] at hdurable
          obtain rfl : fires = false := by simpa [hdurable.2] using hfires
          exact sound_refreshStalePoll hw' (hagain hdurable.1 hquery)
        · exact hw'.park object p
    cases hrefreshed : w.refreshed works object with
    | true =>
      have hleft := hblank (.inl hrefreshed)
      refine hs _ ((h.materialize hleft _ _).find object) fun _ _ _ => ?_
      rw [(find_frame _ object).2.1]
      exact hleft
    | false =>
      obtain ⟨found, hfind⟩ := find_eq w object
      have hs' := h.find object
      simp only [Bool.false_eq_true, if_false]
      rw [hfind] at hs' ⊢
      exact hs _ hs' fun hdurable hquery hagain => hblank (.inr ⟨hdurable, hquery, hagain⟩)

section

omit [EmptyCollection T]

theorem sound_launch (h : Sound w) (boat : List String) : Sound (w.launch boat) := by
  unfold Worker.launch
  split
  · exact h
  · split_ifs
    · have hs : Sound { w with dirty := fun object => w.dirty object && decide (object ∉ boat) } :=
        ⟨h.temp, h.found⟩
      have hpolls := hs.foldl (fun _ object h => h.takeFiredPolls true object) boat
      exact ⟨hpolls.temp, hpolls.found⟩
    · exact h

theorem sound_land (h : Sound w) : Sound w.land := by
  unfold Worker.land
  split
  · exact h
  · exact ⟨h.temp, h.found⟩

theorem sound_shipDone (h : Sound w) : Sound w.shipDone := by
  unfold Worker.shipDone
  cases w.inflight with
  | none => exact h
  | some boat =>
    dsimp only
    split_ifs
    · have hs : Sound { w with
          inflight := none
          logSeq := fun object =>
            if object ∈ boat.items.map Prod.fst then w.logSeq object + 1 else w.logSeq object } :=
        ⟨h.temp, h.found⟩
      exact hs.foldl (fun _ object h => h.takeFiredPolls true object) _
    · exact h

end

theorem sound_activate (h : Sound w) (object : String) : Sound (w.activate object) := by
  unfold Worker.activate
  split
  · exact h
  · refine ⟨fun o conn hconn => ?_, h.found⟩
    by_cases ho : o = object
    · subst ho
      obtain rfl : Conn.fresh (w.log o).1 = conn := by simpa [Worker.materialize] using hconn
      simp [Conn.fresh]
    · have htemp := h.temp o conn (by simpa [Worker.materialize, ho] using hconn)
      simpa [ho] using htemp

theorem sound_step (h : Sound w) {m : Move M T} (hblank : Blank w m) : Sound (w.step m) := by
  cases m with
  | activate object => exact sound_activate h object
  | write txn works => exact sound_write h hblank
  | read participants works => exact sound_read h hblank
  | poll object p works again => exact sound_poll h hblank
  | launch boat => exact sound_launch h boat
  | land => exact sound_land h
  | shipDone => exact sound_shipDone h

/-- A connection replaced with TEMP state on it is noticed at once. -/
theorem not_remembered {w w' : Worker M T} {object : String} (hleft : w.left object ≠ ∅)
    (hpair : (w.left object, (∅ : T)) ∈ w'.found) : ¬ Remembered w' := fun h =>
  hleft (h _ hpair).symm

theorem forgets_write {txn : Txn M T} {works : String → Bool}
    (hbad : ¬ Blank w (.write txn works)) : ¬ Remembered (w.write txn works) := by
  simp only [Blank, Classical.not_imp, not_forall] at hbad
  obtain ⟨hready, object, hmem, hreplaced, hleft⟩ := hbad
  have hpair := found_replaced (w := w) false hmem hreplaced
  refine not_remembered hleft ?_
  unfold Worker.write
  simp only [hready, Bool.not_true, Bool.false_eq_true, if_false]
  split
  · exact hpair
  · exact takeFiredPolls_found _ false _ hpair

theorem forgets_read {participants : List String} {works : String → Bool}
    (hbad : ¬ Blank w (.read participants works)) : ¬ Remembered (w.read participants works) := by
  simp only [Blank, Classical.not_imp, not_forall] at hbad
  obtain ⟨hready, object, hmem, hreplaced, hleft⟩ := hbad
  have hpair := found_replaced (w := w) true hmem hreplaced
  refine not_remembered hleft ?_
  unfold Worker.read
  simpa only [hready, Bool.not_true, Bool.false_eq_true, if_false] using hpair

theorem refreshStalePoll_found (w : Worker M T) (object : String) (p : Poll M T) (works : Bool) :
    w.found ⊆ (w.refreshStalePoll object p works).found := by
  unfold Worker.refreshStalePoll
  rw [refreshIfStale_eq]
  cases w.refreshed works object with
  | false => exact List.Subset.refl _
  | true =>
    have hsub := (find_frame (w.materialize object (w.log object).1 (w.log object).2) object).2.2
    simp only [if_true]
    split
    · exact hsub
    · exact hsub

theorem forgets_poll {object : String} {p : Poll M T} {works again : Bool}
    (hbad : ¬ Blank w (.poll object p works again)) :
    ¬ Remembered (w.poll object p works again) := by
  simp only [Blank, Classical.not_imp] at hbad
  obtain ⟨hready, hreplaced, hleft⟩ := hbad
  refine not_remembered hleft ?_
  unfold Worker.poll
  rw [prepare_one]
  simp only [hready, Bool.not_true, Bool.false_eq_true, if_false]
  cases hrefreshed : w.refreshed works object with
  | true =>
    simp only [if_true]
    have hpair : (w.left object, (∅ : T)) ∈
        ((w.materialize object (w.log object).1 (w.log object).2).find object).found := by
      simp [Worker.find, Worker.materialize, Conn.fresh]
    generalize (w.materialize object (w.log object).1 (w.log object).2).find object = w' at hpair ⊢
    split
    · exact hpair
    · split_ifs
      · exact hpair
      · exact refreshStalePoll_found w' object p again hpair
      · exact hpair
  | false =>
    obtain ⟨hdurable, hquery, hagain⟩ := hreplaced.resolve_left (by simp [hrefreshed])
    obtain ⟨found, hfind⟩ := find_eq w object
    simp only [Bool.false_eq_true, if_false]
    rw [hfind]
    have hclean : w.unshipped object = false := by
      simp only [Worker.refreshed, Bool.and_eq_true, Bool.not_eq_true'] at hagain
      exact hagain.1.1
    have hquery : Worker.queried { w with found } object p = some false := hquery
    have hclean : Worker.unshipped { w with found } object = false := hclean
    have hagain : Worker.refreshed { w with found } again object = true := hagain
    simp only [hquery, hdurable, hclean, Bool.and_false, Bool.not_false, Bool.and_self,
      Bool.false_eq_true, if_true, if_false]
    unfold Worker.refreshStalePoll
    rw [refreshIfStale_eq, hagain]
    have hpair : (w.left object, (∅ : T)) ∈ (Worker.find (Worker.materialize { w with found } object
        (w.log object).1 (w.log object).2) object).found := by
      simp [Worker.find, Worker.materialize, Conn.fresh]
    simp only [if_true]
    split
    · exact hpair
    · exact hpair

theorem forgets_step {m : Move M T} (hbad : ¬ Blank w m) : ¬ Remembered (w.step m) := by
  cases m with
  | write txn works => exact forgets_write hbad
  | read participants works => exact forgets_read hbad
  | poll object p works again => exact forgets_poll hbad
  | activate => exact absurd trivial hbad
  | launch => exact absurd trivial hbad
  | land => exact absurd trivial hbad
  | shipDone => exact absurd trivial hbad

theorem sound_initial (log : String → M × Nat) : Sound (start log : Worker M T) := ⟨nofun, nofun⟩

/-- Every transaction and poll finds the TEMP state that the last transaction left exactly when
connections are replaced only while they have none. -/
theorem temp_remembered_iff (log : String → M × Nat) (moves : List (Move M T)) :
    Runs.Throughout Worker.step Remembered (start log : Worker M T) moves ↔
      Runs.Guarded Worker.step Blank (start log : Worker M T) moves :=
  Runs.throughout_iff_guarded (I := Sound) (fun _ _ h hb => sound_step h hb) (fun _ h => h.found)
    (fun _ _ _ hbad => forgets_step hbad) (sound_initial log)

/-- `CREATE TEMP TABLE typing`, and a row in it. -/
def typing : Txn Nat (List String) where
  participants := ["room"]
  ops _ := some { main := fun _ => none, temp := fun _ => ["alice"] }

/-- An insert into the room's messages. -/
def publish : Txn Nat (List String) where
  participants := ["room"]
  ops conns := (conns "room").map fun conn =>
    { main := fun _ => some (conn.main + 1), temp := fun _ => conn.temp }

theorem typing_forgotten :
    ¬ Runs.Throughout Worker.step Remembered (start (fun _ => (0, 1)) : Worker Nat (List String))
      [.activate "room", .write typing fun _ => true, .write publish fun _ => true] := by
  intro h
  have heq := h.last (["alice"], []) (by decide)
  cases heq

end Fafo.Ephemeral
