import Mathlib.Data.List.Forall2
import Fafo.Boats
import Fafo.Library.Runs

/-! What a pessimistic ack says of the transactions before it. -/
namespace Fafo.Barrier

/-- A write transaction the worker applied: the objects it durably changed, and its mode. -/
structure Write (ι : Type) where
  changed : List ι
  optimistic : Bool
  deriving DecidableEq

/-- For the record: the transactions a boat carries, and those its cut left behind. -/
structure Trip where
  aboard : List Nat := []
  behind : List Nat := []

/-- A worker's boats, whose waiters are transactions by number; the waiters of the boat in flight,
and whether it has landed. For the record: all transactions applied, what is pending in the order of
`boats.pending` (a repair is no transaction), the trips so far, who was answered Ok, and whose
commit point has landed. -/
structure State (ι : Type) where
  boats : Boats ι Nat := {}
  waiters : List Nat := []
  landed : Bool := false
  applied : List (Write ι) := []
  waiting : List (Option Nat) := []
  trip : Trip := {}
  trips : List Trip := []
  answered : List Nat := []
  durable : List Nat := []

/-- The byte cap of a boat, and the watermark of unshipped bytes. -/
structure Limits where
  maxBoatBytes : Nat
  maxUnshipped : Nat

/-- What happens to one worker. Live files have the sizes they have then; a boat that was launched
lands, and its `ShipDone` comes in later. -/
inductive Move (ι : Type) where
  | write (w : Write ι) (bytes : ι → Nat)
  | land
  | shipDone (unpromoted : List ι) (bytes : ι → Nat)
  | launch

variable {ι : Type} [DecidableEq ι]

namespace State

/-- The transactions among some of what is pending. -/
def txnsAt (s : State ι) (selected : List Nat) : List Nat :=
  selected.filterMap fun i => s.waiting[i]?.join

/-- `maybe_launch`, where nothing is reverted. -/
def maybeLaunch (limits : Limits) (s : State ι) : State ι :=
  if s.boats.inflight.isSome || s.boats.pending.isEmpty then s else
  let cut := s.boats.cut limits.maxBoatBytes
  let trip : Trip := ⟨s.txnsAt cut.selected, s.txnsAt cut.leftover⟩
  { s with
    boats := { s.boats.ashore cut with inflight := some cut.objects }
    waiters := s.boats.boarding cut
    landed := false
    waiting := (cut.leftover.insertionSort (· ≤ ·)).filterMap fun i => s.waiting[i]?
    trip
    trips := trip :: s.trips }

/-- Apply a write transaction. One that changed nothing is answered right now; an optimistic one is,
below the watermark; else the boat answers. -/
def write (limits : Limits) (w : Write ι) (bytes : ι → Nat) (s : State ι) : State ι :=
  let t := s.applied.length
  let s := { s with applied := s.applied ++ [w] }
  if w.changed.isEmpty then ({ s with answered := t :: s.answered }).maybeLaunch limits else
  let soiled := w.changed.foldl (fun b o => Boats.soil bytes o b) s.boats
  let early := w.optimistic && decide (soiled.dirtyBytes ≤ limits.maxUnshipped)
  let waiter := if early then none else some t
  ({ s with
    boats := s.boats.applied bytes ⟨w.changed, waiter⟩
    waiting := s.waiting ++ [some t]
    answered := if early then t :: s.answered else s.answered }).maybeLaunch limits

/-- The commit point of the boat in flight: its waiters are answered. -/
def land (s : State ι) : State ι :=
  if s.boats.inflight.isSome && !s.landed then
    { s with
      landed := true
      answered := s.waiters ++ s.answered
      durable := s.trip.aboard ++ s.durable }
  else s

/-- `on_ship_done`, ok. What was not promoted is dirty again, and a repair boat is due. -/
def shipDone (limits : Limits) (unpromoted : List ι) (bytes : ι → Nat) (s : State ι) : State ι :=
  if s.boats.inflight.isSome && s.landed then
    let s := { s with boats := { s.boats with inflight := none } }
    let s := if unpromoted.isEmpty then s else
      { s with
        boats := s.boats.applied bytes ⟨unpromoted, none⟩
        waiting := s.waiting ++ [none] }
    s.maybeLaunch limits
  else s

def step (limits : Limits) (s : State ι) : Move ι → State ι
  | .write w bytes => s.write limits w bytes
  | .land => s.land
  | .shipDone unpromoted bytes => s.shipDone limits unpromoted bytes
  | .launch => s.maybeLaunch limits

end State

/-- The commit point of a transaction has landed; one that changed nothing has none. -/
def Durable (s : State ι) (t : Nat) : Prop :=
  t ∈ s.durable ∨ ∀ w, s.applied[t]? = some w → w.changed = []

/-- When a pessimistic transaction is answered, all that was applied before it is durable. -/
def Flushed (s : State ι) : Prop :=
  ∀ t ∈ s.answered, ∀ w, s.applied[t]? = some w → w.optimistic = false → ∀ u < t, Durable s u

/-- When a pessimistic transaction that changed something is answered, all that was applied before
it is durable, up to what the cap left behind when its boat was cut. -/
def FlushedToCap (s : State ι) : Prop :=
  ∀ t ∈ s.answered, ∀ w, s.applied[t]? = some w → w.optimistic = false → w.changed ≠ [] →
    ∀ u < t, Durable s u ∨ ∃ trip ∈ s.trips, t ∈ trip.aboard ∧ u ∈ trip.behind

/-- What waits for its boat is on record under its own number. -/
def Matches (txn : AppliedTxn ι Nat) (id : Option Nat) : Prop :=
  ∀ t, txn.waiter = some t → id = some t

omit [DecidableEq ι] in
/-- Two lists that match still do when both are cut down to the same places. -/
theorem forall₂_pick {α β : Type} {R : α → β → Prop} {l : List α} {l' : List β}
    (h : List.Forall₂ R l l') (is : List Nat) :
    List.Forall₂ R (is.filterMap fun i => l[i]?) (is.filterMap fun i => l'[i]?) := by
  obtain ⟨hlen, hget⟩ := List.forall₂_iff_get.mp h
  induction is with
  | nil => exact .nil
  | cons i is ih =>
    by_cases hi : i < l.length
    · rw [List.filterMap_cons_some (List.getElem?_eq_getElem hi),
        List.filterMap_cons_some (List.getElem?_eq_getElem (hlen ▸ hi))]
      exact .cons (hget i hi (hlen ▸ hi)) ih
    · rw [List.filterMap_cons_none (List.getElem?_eq_none (by omega)),
        List.filterMap_cons_none (List.getElem?_eq_none (by omega))]
      exact ih

/-- Where every transaction is, and what those in flight may count on. -/
structure Sound (s : State ι) : Prop where
  matching : List.Forall₂ Matches s.boats.pending s.waiting
  numbered : ∀ t, some t ∈ s.waiting → t < s.applied.length
  covered : ∀ t < s.applied.length, Durable s t ∨
    (s.boats.inflight.isSome ∧ s.landed = false ∧ t ∈ s.trip.aboard) ∨ some t ∈ s.waiting
  trip : s.boats.inflight.isSome → s.trip ∈ s.trips
  waiters : s.boats.inflight.isSome → s.landed = false → ∀ t ∈ s.waiters,
    t < s.applied.length ∧ t ∈ s.trip.aboard ∧
      ∀ u < t, Durable s u ∨ u ∈ s.trip.aboard ∨ u ∈ s.trip.behind
  answered : ∀ t ∈ s.answered, t < s.applied.length
  flushed : FlushedToCap s

variable {s : State ι} {limits : Limits}

omit [DecidableEq ι] in
theorem Sound.initial : Sound ({} : State ι) where
  matching := .nil
  numbered _ h := by cases h
  covered _ h := by cases h
  trip h := by cases h
  waiters h := by cases h
  answered _ h := by cases h
  flushed _ h := by cases h

omit [DecidableEq ι] in
theorem mem_txnsAt {selected : List Nat} {i t : Nat} (hi : i ∈ selected)
    (ht : s.waiting[i]? = some (some t)) : t ∈ s.txnsAt selected :=
  List.mem_filterMap.mpr ⟨i, hi, by rw [ht, Option.join_some]⟩

theorem Sound.maybeLaunch (hs : Sound s) : Sound (s.maybeLaunch limits) := by
  unfold State.maybeLaunch
  split
  · exact hs
  next hidle =>
  have hidle : s.boats.inflight.isSome = false := by
    cases hflight : s.boats.inflight.isSome with
    | false => rfl
    | true => exact absurd (by rw [hflight]; rfl) hidle
  obtain ⟨hlen, hget⟩ := List.forall₂_iff_get.mp hs.matching
  -- who is not durable boards, or is left behind
  have hpart : ∀ t < s.applied.length, Durable s t ∨
      t ∈ s.txnsAt (s.boats.cut limits.maxBoatBytes).selected ∨
        ∃ i ∈ (s.boats.cut limits.maxBoatBytes).leftover, s.waiting[i]? = some (some t) := by
    intro t ht
    rcases hs.covered t ht with hdurable | ⟨hflight, _⟩ | hwaiting
    · exact .inl hdurable
    · rw [hidle] at hflight
      cases hflight
    · obtain ⟨i, hi⟩ := List.mem_iff_getElem?.mp hwaiting
      have hlt : i < s.boats.pending.length := by
        rw [hlen]
        exact (List.getElem?_eq_some_iff.mp hi).1
      rcases Boats.mem_cut limits.maxBoatBytes hlt with hsel | hleft
      · exact .inr (.inl (mem_txnsAt hsel hi))
      · exact .inr (.inr ⟨i, hleft, hi⟩)
  refine ⟨?_, fun t ht => ?_, fun t ht => ?_, fun _ => List.mem_cons_self,
    fun _ _ t ht => ?_, hs.answered, fun t ht w hw hmode hchanged u hu => ?_⟩
  · simp only [Boats.ashore_pending]
    exact forall₂_pick hs.matching _
  · obtain ⟨i, _, hi⟩ := List.mem_filterMap.mp ht
    exact hs.numbered t (List.mem_of_getElem? hi)
  · rcases hpart t ht with hdurable | haboard | ⟨i, hleft, hi⟩
    · exact .inl hdurable
    · exact .inr (.inl ⟨rfl, rfl, haboard⟩)
    · exact .inr (.inr (List.mem_filterMap.mpr
        ⟨i, (List.mem_insertionSort _).mpr hleft, hi⟩))
  · obtain ⟨i, hsel, hi⟩ := List.mem_filterMap.mp ht
    obtain ⟨txn, htxn, hwaiter⟩ := Option.bind_eq_some_iff.mp hi
    obtain ⟨hlt, rfl⟩ := List.getElem?_eq_some_iff.mp htxn
    have hid : s.waiting[i]? = some (some t) := by
      rw [List.getElem?_eq_getElem (hlen ▸ hlt)]
      exact congrArg some (hget i hlt (hlen ▸ hlt) t hwaiter)
    have ht := hs.numbered t (List.mem_of_getElem? hid)
    refine ⟨ht, mem_txnsAt hsel hid, fun u hu => ?_⟩
    rcases hpart u (hu.trans ht) with hdurable | haboard | ⟨j, hleft, hj⟩
    · exact .inl hdurable
    · exact .inr (.inl haboard)
    · exact .inr (.inr (mem_txnsAt hleft hj))
  · rcases hs.flushed t ht w hw hmode hchanged u hu with hdurable | ⟨trip, htrip, h⟩
    · exact .inl hdurable
    · exact .inr ⟨trip, List.mem_cons_of_mem _ htrip, h⟩

omit [DecidableEq ι] in
/-- The record goes on. -/
theorem Durable.append {s' : State ι} {w : Write ι} {t : Nat}
    (happlied : s'.applied = s.applied ++ [w]) (hdurable : s'.durable = s.durable)
    (ht : t < s.applied.length) : Durable s' t ↔ Durable s t := by
  rw [Durable, Durable, happlied, hdurable, List.getElem?_append_left ht]

omit [DecidableEq ι] in
/-- A further transaction is on record; it changed nothing, or is pending. -/
theorem Sound.record (hs : Sound s) (w : Write ι) {boats : Boats ι Nat}
    {waiting : List (Option Nat)} {answered : List Nat}
    (hinflight : boats.inflight = s.boats.inflight)
    (hmatching : List.Forall₂ Matches boats.pending waiting)
    (hold : ∀ id ∈ s.waiting, id ∈ waiting)
    (hnumbered : ∀ t, some t ∈ waiting → some t ∈ s.waiting ∨ t = s.applied.length)
    (hnew : w.changed = [] ∨ some s.applied.length ∈ waiting)
    (hanswered : ∀ t ∈ answered, t ∈ s.answered ∨
      t = s.applied.length ∧ (w.optimistic = true ∨ w.changed = [])) :
    Sound { s with boats, waiting, answered, applied := s.applied ++ [w] } := by
  have hlt : ∀ {t}, t < s.applied.length → t < (s.applied ++ [w]).length := by
    intro t ht
    rw [List.length_append]
    omega
  have hdurable : ∀ {t}, t < s.applied.length → (Durable
      { s with boats, waiting, answered, applied := s.applied ++ [w] } t ↔ Durable s t) :=
    fun ht => Durable.append rfl rfl ht
  refine ⟨hmatching, fun t ht => ?_, fun t ht => ?_, fun h => ?_, fun h hlanded t ht => ?_,
    fun t ht => ?_, fun t ht v hv hmode hchanged u hu => ?_⟩
  · rcases hnumbered t ht with ht | rfl
    · exact hlt (hs.numbered t ht)
    · rw [List.length_append]
      exact Nat.lt_succ_self _
  · rw [List.length_append, List.length_singleton] at ht
    rcases Nat.lt_succ_iff_lt_or_eq.mp ht with ht | rfl
    · rcases hs.covered t ht with h | ⟨hflight, h⟩ | h
      · exact .inl ((hdurable ht).mpr h)
      · exact .inr (.inl ⟨by rw [hinflight]; exact hflight, h⟩)
      · exact .inr (.inr (hold _ h))
    · rcases hnew with hempty | hmem
      · refine .inl (.inr fun v hv => ?_)
        rw [List.getElem?_concat_length] at hv
        cases hv
        exact hempty
      · exact .inr (.inr hmem)
  · rw [hinflight] at h
    exact hs.trip h
  · rw [hinflight] at h
    obtain ⟨hlen, haboard, hbefore⟩ := hs.waiters h hlanded t ht
    refine ⟨hlt hlen, haboard, fun u hu => ?_⟩
    exact (hbefore u hu).imp_left (hdurable (hu.trans hlen)).mpr
  · rcases hanswered t ht with ht | ⟨rfl, _⟩
    · exact hlt (hs.answered t ht)
    · rw [List.length_append]
      exact Nat.lt_succ_self _
  · rcases hanswered t ht with ht | ⟨rfl, hwhy⟩
    · have hlen := hs.answered t ht
      rw [List.getElem?_append_left hlen] at hv
      exact (hs.flushed t ht v hv hmode hchanged u hu).imp_left (hdurable (hu.trans hlen)).mpr
    · rw [List.getElem?_concat_length] at hv
      cases hv
      rcases hwhy with hwhy | hwhy
      · rw [hmode] at hwhy
        cases hwhy
      · exact absurd hwhy hchanged

theorem Sound.write (hs : Sound s) (w : Write ι) (bytes : ι → Nat) :
    Sound (s.write limits w bytes) := by
  unfold State.write
  dsimp only
  split
  · next hempty =>
    refine Sound.maybeLaunch (hs.record w rfl hs.matching (fun _ h => h) (fun _ h => .inl h)
      (.inl (List.isEmpty_iff.mp hempty)) fun t ht => ?_)
    rcases List.mem_cons.mp ht with rfl | ht
    · exact .inr ⟨rfl, .inr (List.isEmpty_iff.mp hempty)⟩
    · exact .inl ht
  · have hsoil := Boats.soil_all bytes w.changed s.boats
    refine Sound.maybeLaunch (hs.record w hsoil.1 ?_ (fun _ h => List.mem_append_left _ h)
      (fun t ht => ?_) (.inr (by simp)) fun t ht => ?_)
    · rw [Boats.applied, hsoil.2]
      refine List.rel_append hs.matching (.cons (fun t ht => ?_) .nil)
      split at ht
      · cases ht
      · exact ht
    · rcases List.mem_append.mp ht with ht | ht
      · exact .inl ht
      · exact .inr (Option.some_inj.mp (List.mem_singleton.mp ht))
    · split at ht
      · next hearly =>
        rcases List.mem_cons.mp ht with rfl | ht
        · exact .inr ⟨rfl, .inl (Bool.and_eq_true_iff.mp hearly).1⟩
        · exact .inl ht
      · exact .inl ht

omit [DecidableEq ι] in
theorem Sound.land (hs : Sound s) : Sound s.land := by
  unfold State.land
  split
  · next hflight =>
    obtain ⟨hflight, hlanded⟩ := Bool.and_eq_true_iff.mp hflight
    have hlanded : s.landed = false := Bool.not_eq_true' _ ▸ hlanded
    have hdurable : ∀ {t}, Durable s t ∨ t ∈ s.trip.aboard → Durable
        { s with
          landed := true
          answered := s.waiters ++ s.answered
          durable := s.trip.aboard ++ s.durable } t := by
      rintro t ((h | h) | h)
      · exact .inl (List.mem_append_right _ h)
      · exact .inr h
      · exact .inl (List.mem_append_left _ h)
    refine ⟨hs.matching, hs.numbered, fun t ht => ?_, hs.trip, fun _ h => (by cases h),
      fun t ht => ?_, fun t ht w hw hmode hchanged u hu => ?_⟩
    · rcases hs.covered t ht with h | ⟨_, _, h⟩ | h
      · exact .inl (hdurable (.inl h))
      · exact .inl (hdurable (.inr h))
      · exact .inr (.inr h)
    · rcases List.mem_append.mp ht with ht | ht
      · exact (hs.waiters hflight hlanded t ht).1
      · exact hs.answered t ht
    · rcases List.mem_append.mp ht with ht | ht
      · obtain ⟨_, haboard, hbefore⟩ := hs.waiters hflight hlanded t ht
        rcases hbefore u hu with h | h | h
        · exact .inl (hdurable (.inl h))
        · exact .inl (hdurable (.inr h))
        · exact .inr ⟨s.trip, hs.trip hflight, haboard, h⟩
      · exact (hs.flushed t ht w hw hmode hchanged u hu).imp_left fun h => hdurable (.inl h)
  · exact hs

theorem Sound.shipDone (hs : Sound s) (unpromoted : List ι) (bytes : ι → Nat) :
    Sound (s.shipDone limits unpromoted bytes) := by
  unfold State.shipDone
  split
  · next hflight =>
    have hlanded := (Bool.and_eq_true_iff.mp hflight).2
    have harrived : Sound { s with boats := { s.boats with inflight := none } } := by
      refine ⟨hs.matching, hs.numbered, fun t ht => ?_, fun h => (by cases h),
        fun h => (by cases h), hs.answered, hs.flushed⟩
      rcases hs.covered t ht with h | ⟨_, h, _⟩ | h
      · exact .inl h
      · rw [hlanded] at h
        cases h
      · exact .inr (.inr h)
    refine Sound.maybeLaunch ?_
    split
    · exact harrived
    · obtain ⟨hinflight, hpending⟩ :=
        Boats.soil_all bytes unpromoted { s.boats with inflight := none }
      refine ⟨?_, fun t ht => ?_, fun t ht => ?_, fun h => ?_, fun h => ?_, harrived.answered,
        harrived.flushed⟩
      · rw [Boats.applied, hpending]
        exact List.rel_append harrived.matching (.cons (fun _ h => by cases h) .nil)
      · rcases List.mem_append.mp ht with ht | ht
        · exact hs.numbered t ht
        · cases List.mem_singleton.mp ht
      · rcases harrived.covered t ht with h | ⟨h, _⟩ | h
        · exact .inl h
        · cases h
        · exact .inr (.inr (List.mem_append_left _ h))
      · rw [Boats.applied, hinflight] at h
        cases h
      · rw [Boats.applied, hinflight] at h
        cases h
  · exact hs

/-- In every run without reverts, a pessimistic transaction that changed something is answered once
all before it is durable, up to what the cap left behind. -/
theorem flush_barrier (limits : Limits) (moves : List (Move ι)) :
    Runs.Throughout (State.step limits) FlushedToCap {} moves := by
  refine Runs.invariant (I := Sound) (fun s m hs => ?_) (fun s hs => hs.flushed) Sound.initial moves
  cases m with
  | write w bytes => exact hs.write w bytes
  | land => exact hs.land
  | shipDone unpromoted bytes => exact hs.shipDone unpromoted bytes
  | launch => exact hs.maybeLaunch

/-- An optimistic transaction is in flight when a pessimistic one changes nothing. -/
def unchanged : List (Move Nat) :=
  [.write ⟨[0], true⟩ fun _ => 1, .write ⟨[], false⟩ fun _ => 1]

/-- Objects of as many bytes as their number. While object 0 is in flight, 1, 4 and 2 are written,
the last of them pessimistically. -/
def overtaking : List (Move Nat) :=
  [.write ⟨[0], true⟩ id, .write ⟨[1], true⟩ id, .write ⟨[4], true⟩ id, .write ⟨[2], false⟩ id,
    .land, .shipDone [] id, .land]

/-- Neither a transaction that changed nothing nor one whose boat had no room for a bigger component
is a barrier. -/
theorem barrier_passed :
    ¬ Runs.Throughout (State.step ⟨100, 100⟩) Flushed {} unchanged ∧
      ¬ Runs.Throughout (State.step ⟨4, 100⟩) Flushed {} overtaking := by
  refine ⟨fun h => ?_, fun h => ?_⟩
  · have hanswered : 1 ∈ (Runs.run (State.step ⟨100, 100⟩) {} unchanged).answered := by
      decide +kernel
    have hsecond : (Runs.run (State.step ⟨100, 100⟩) {} unchanged).applied[1]? =
        some ⟨[], false⟩ := by decide +kernel
    have hfirst : (Runs.run (State.step ⟨100, 100⟩) {} unchanged).applied[0]? =
        some ⟨[0], true⟩ := by decide +kernel
    have hdurable : 0 ∉ (Runs.run (State.step ⟨100, 100⟩) {} unchanged).durable := by
      decide +kernel
    rcases h.last 1 hanswered _ hsecond rfl 0 (by decide) with hin | hempty
    · exact hdurable hin
    · cases hempty _ hfirst
  · have hanswered : 3 ∈ (Runs.run (State.step ⟨4, 100⟩) {} overtaking).answered := by
      decide +kernel
    have hlast : (Runs.run (State.step ⟨4, 100⟩) {} overtaking).applied[3]? =
        some ⟨[2], false⟩ := by decide +kernel
    have hbigger : (Runs.run (State.step ⟨4, 100⟩) {} overtaking).applied[2]? =
        some ⟨[4], true⟩ := by decide +kernel
    have hdurable : 2 ∉ (Runs.run (State.step ⟨4, 100⟩) {} overtaking).durable := by
      decide +kernel
    rcases h.last 3 hanswered _ hlast rfl 2 (by decide) with hin | hempty
    · exact hdurable hin
    · cases hempty _ hbigger

end Fafo.Barrier
