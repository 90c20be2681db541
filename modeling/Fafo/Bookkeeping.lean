import Mathlib.Logic.Relation
import Fafo.Cutting
import Fafo.Library.Tally

/-! What the maps of the boats have to do with each other. -/
namespace Fafo.Boats

variable {ι ω : Type} [DecidableEq ι]

/-- The total is right, and no subtraction from it has saturated. -/
structure Tallied (b : Boats ι ω) : Prop where
  total : b.dirtyBytes = (b.dirty.entries.map Sigma.snd).sum
  exact : b.saturated = false

/-- And just the participants of what is pending are dirty. -/
structure Booked (b : Boats ι ω) : Prop extends Tallied b where
  keys : ∀ o, o ∈ b.dirty ↔ ∃ txn ∈ b.pending, o ∈ txn.participants

variable {b : Boats ι ω} {object : ι} {objects : List ι}

omit [DecidableEq ι] in
/-- The books do not say where a boat is. -/
theorem Booked.sail (h : b.Booked) (inflight : Option (List ι)) :
    Booked { b with inflight } := ⟨⟨h.total, h.exact⟩, h.keys⟩

/-- A map without one of its entries. -/
theorem sum_erase {m : AList fun _ : ι => Nat} {bytes : Nat} (h : m.lookup object = some bytes) :
    ((m.erase object).entries.map Sigma.snd).sum + bytes = (m.entries.map Sigma.snd).sum :=
  Tally.total_erase (f := fun _ bytes => bytes) h

theorem Tallied.clean (h : b.Tallied) (object : ι) : (b.clean object).Tallied := by
  unfold Boats.clean
  cases hlookup : b.dirty.lookup object with
  | none => exact h
  | some bytes =>
    have hsum := sum_erase hlookup
    have htotal := h.total
    refine ⟨?_, ?_⟩
    · dsimp only
      omega
    · have hle : ¬ b.dirtyBytes < bytes := by omega
      simp [h.exact, hle]

theorem Tallied.cleanAll (h : b.Tallied) (objects : List ι) : (b.cleanAll objects).Tallied := by
  induction objects generalizing b with
  | nil => exact h
  | cons o objects ih => exact ih (h.clean o)

omit [DecidableEq ι] in
/-- The pending transactions do not count. -/
theorem Tallied.withPending (h : b.Tallied) (pending : List (AppliedTxn ι ω)) :
    Tallied { b with pending } := ⟨h.total, h.exact⟩

theorem mem_cleanAll (o : ι) : o ∈ (b.cleanAll objects).dirty ↔ o ∉ objects ∧ o ∈ b.dirty := by
  rw [← AList.lookup_isSome, ← AList.lookup_isSome, lookup_cleanAll]
  split_ifs with ho <;> simp [ho]

theorem Tallied.soil (h : b.Tallied) (bytes : ι → Nat) (object : ι) :
    (b.soil bytes object).Tallied := by
  unfold Boats.soil
  split_ifs with hdirty
  · exact h
  · have hout : object ∉ b.dirty := fun hmem => hdirty (AList.lookup_isSome.mpr hmem)
    refine ⟨?_, h.exact⟩
    have htotal := h.total
    simp only [AList.entries_insert_of_notMem hout, List.map_cons, List.sum_cons]
    omega

theorem mem_soil (bytes : ι → Nat) (o : ι) :
    o ∈ (b.soil bytes object).dirty ↔ o = object ∨ o ∈ b.dirty := by
  unfold Boats.soil
  split_ifs with hdirty
  · refine ⟨.inr, ?_⟩
    rintro (rfl | h)
    · exact AList.lookup_isSome.mp hdirty
    · exact h
  · exact AList.mem_insert _

theorem Tallied.soilAll (h : b.Tallied) (bytes : ι → Nat) (objects : List ι) :
    (objects.foldl (fun b o => Boats.soil bytes o b) b).Tallied := by
  induction objects generalizing b with
  | nil => exact h
  | cons o objects ih => exact ih (h.soil bytes o)

theorem mem_soilAll (bytes : ι → Nat) (o : ι) :
    o ∈ (objects.foldl (fun b o => Boats.soil bytes o b) b).dirty ↔ o ∈ objects ∨ o ∈ b.dirty := by
  induction objects generalizing b with
  | nil => simp
  | cons object objects ih =>
    rw [List.foldl_cons, ih, mem_soil, List.mem_cons]
    tauto

theorem mem_applied (bytes : ι → Nat) (txn : AppliedTxn ι ω) (o : ι) :
    o ∈ (b.applied bytes txn).dirty ↔ o ∈ txn.participants ∨ o ∈ b.dirty := mem_soilAll bytes o

theorem applied_pending (bytes : ι → Nat) (txn : AppliedTxn ι ω) :
    (b.applied bytes txn).pending = b.pending ++ [txn] :=
  congrArg (· ++ [txn]) (soil_all bytes txn.participants b).2

theorem applied_inflight (bytes : ι → Nat) (txn : AppliedTxn ι ω) :
    (b.applied bytes txn).inflight = b.inflight := (soil_all bytes txn.participants b).1

theorem Booked.applied (h : b.Booked) (bytes : ι → Nat) (txn : AppliedTxn ι ω) :
    (b.applied bytes txn).Booked := by
  have htallied := h.soilAll bytes txn.participants
  refine ⟨⟨htallied.total, htallied.exact⟩, fun o => ?_⟩
  rw [mem_applied, applied_pending, h.keys]
  constructor
  · rintro (ho | ⟨t, ht, ho⟩)
    · exact ⟨txn, List.mem_append_right _ List.mem_cons_self, ho⟩
    · exact ⟨t, List.mem_append_left _ ht, ho⟩
  · rintro ⟨t, ht, ho⟩
    rcases List.mem_append.mp ht with ht | ht
    · exact .inr ⟨t, ht, ho⟩
    · exact .inl (List.mem_singleton.mp ht ▸ ho)

/-- Only what is in the closure may be off the books before a revert. -/
theorem Tallied.reverted (h : b.Tallied) {seed : List ι}
    (hkeys : ∀ o ∉ b.closure seed, o ∈ b.dirty ↔ ∃ txn ∈ b.pending, o ∈ txn.participants) :
    (b.reverted seed).Booked := by
  refine ⟨(h.withPending _).cleanAll _, fun o => ?_⟩
  rw [reverted_pending, Boats.reverted, mem_cleanAll]
  constructor
  · rintro ⟨hout, hdirty⟩
    obtain ⟨txn, htxn, ho⟩ := (hkeys o hout).mp hdirty
    refine ⟨txn, List.mem_filter.mpr ⟨htxn, decide_eq_true fun hmeets => hout ?_⟩, ho⟩
    exact Groups.closure_closed _ seed txn.participants (List.mem_map_of_mem htxn) hmeets ho
  · rintro ⟨txn, htxn, ho⟩
    obtain ⟨htxn, hmeets⟩ := List.mem_filter.mp htxn
    have hout : o ∉ b.closure seed := fun hin => of_decide_eq_true hmeets ⟨o, ho, hin⟩
    exact ⟨hout, (hkeys o hout).mpr ⟨txn, htxn, ho⟩⟩

theorem Booked.reverted (h : b.Booked) (seed : List ι) : (b.reverted seed).Booked :=
  h.toTallied.reverted fun o _ => h.keys o

theorem Booked.mem_cut (h : b.Booked) {limit : Nat} {o : ι} (ho : o ∈ (b.cut limit).objects) :
    o ∈ b.dirty := by
  obtain ⟨i, _, hi⟩ := ((cut_fills limit b).objects o).mp ho
  obtain ⟨txn, htxn, ho⟩ := mem_participantsAt.mp hi
  exact (h.keys o).mpr ⟨txn, List.mem_of_getElem? htxn, ho⟩

theorem Booked.ashore (h : b.Booked) (limit : Nat) : (b.ashore (b.cut limit)).Booked := by
  have hfills := cut_fills limit b
  refine ⟨(h.withPending _).cleanAll _, fun o => ?_⟩
  have hmem : o ∈ (b.ashore (b.cut limit)).dirty ↔ o ∉ (b.cut limit).objects ∧ o ∈ b.dirty :=
    mem_cleanAll o
  rw [hmem, h.keys]
  constructor
  · rintro ⟨hout, txn, htxn, ho⟩
    obtain ⟨i, hi⟩ := List.mem_iff_getElem?.mp htxn
    rcases cut_whole limit b (List.getElem?_eq_some_iff.mp hi).1 with ⟨_, hin⟩ | ⟨hleft, _⟩
    · exact absurd (hin (mem_participantsAt.mpr ⟨txn, hi, ho⟩)) hout
    · exact ⟨txn, mem_ashore.mpr ⟨i, hleft, hi⟩, ho⟩
  · rintro ⟨txn, htxn, ho⟩
    exact ⟨ashore_apart htxn ho, txn, hfills.ordered.subset htxn, ho⟩

/-- Nothing has to stay behind: the total is within the cap, or everything hangs together. -/
def Fits (limit : Nat) (b : Boats ι ω) : Prop :=
  b.dirtyBytes ≤ limit ∨ b.components.length ≤ 1

theorem sum_size_keys (m : AList fun _ : ι => Nat) :
    (m.keys.map fun o => (m.lookup o).getD 0).sum = (m.entries.map Sigma.snd).sum := by
  have hkeys : m.keys = m.entries.map Sigma.fst := rfl
  rw [hkeys, List.map_map]
  refine congrArg List.sum (List.map_congr_left fun entry hentry => ?_)
  have : m.lookup entry.1 = some entry.2 := List.mem_dlookup m.nodupKeys hentry
  rw [Function.comp_apply, this, Option.getD_some]

/-- Every dirty byte is in one component. -/
theorem Booked.load (h : b.Booked) : b.load b.components = b.dirtyBytes := by
  have hnodup : (b.components.flatMap b.objectsOf).Nodup := by
    rw [List.nodup_flatMap]
    refine ⟨fun c _ => List.nodup_dedup _, b.components_apart.imp fun {c d} hapart o hc hd => ?_⟩
    obtain ⟨i, hi, hoi⟩ := mem_objectsOf.mp hc
    obtain ⟨j, hj, hoj⟩ := mem_objectsOf.mp hd
    exact hapart i hi j hj o hoi hoj
  have hperm : (b.components.flatMap b.objectsOf).Perm b.dirty.keys := by
    refine (List.perm_ext_iff_of_nodup hnodup b.dirty.nodupKeys).mpr fun o => ?_
    have hdirty : o ∈ b.dirty.entries.keys ↔ ∃ txn ∈ b.pending, o ∈ txn.participants := h.keys o
    rw [hdirty, List.mem_flatMap]
    constructor
    · rintro ⟨c, _, ho⟩
      obtain ⟨i, _, hoi⟩ := mem_objectsOf.mp ho
      obtain ⟨txn, htxn, ho⟩ := mem_participantsAt.mp hoi
      exact ⟨txn, List.mem_of_getElem? htxn, ho⟩
    · rintro ⟨txn, htxn, ho⟩
      obtain ⟨i, hi⟩ := List.mem_iff_getElem?.mp htxn
      have hlt : i < (b.pending.map AppliedTxn.participants).length := by
        rw [List.length_map]
        exact (List.getElem?_eq_some_iff.mp hi).1
      obtain ⟨c, hc, hic⟩ := mem_txnComponents hlt
      exact ⟨c, hc, mem_objectsOf.mpr ⟨i, hic, mem_participantsAt.mpr ⟨txn, hi, ho⟩⟩⟩
  have hsum := (hperm.map b.size).sum_eq
  rw [List.map_flatMap, List.flatMap_def, List.sum_flatten, List.map_map] at hsum
  exact hsum.trans ((sum_size_keys b.dirty).trans h.total.symm)

theorem Booked.leftover_nil (h : b.Booked) {limit : Nat} (hfits : b.Fits limit) :
    (b.cut limit).leftover = [] := by
  obtain ⟨picked, left, hloaded⟩ := loaded_cut limit b
  by_contra hleftover
  have hleft : left ≠ [] := by
    rintro rfl
    exact hleftover hloaded.leftover
  obtain ⟨hover, hmany⟩ := hloaded.behind hleft
  rw [h.load] at hover
  rcases hfits with hfits | hfits <;> omega

omit [DecidableEq ι] in
theorem booked_empty : ({} : Boats ι ω).Booked := by
  refine ⟨⟨rfl, rfl⟩, fun o => ⟨fun h => ?_, ?_⟩⟩
  · exact absurd h (AList.notMem_empty o)
  · rintro ⟨_, htxn, _⟩
    cases htxn

omit [DecidableEq ι] in
/-- A worker that comes to launch has no boat in flight. -/
theorem idle_of_not (h : ¬ (b.inflight.isSome || b.pending.isEmpty) = true) :
    b.inflight = none := by
  rw [Bool.or_eq_true, not_or, Option.isSome_iff_ne_none, not_not] at h
  exact h.1

/-- One thing that a worker does to its boats. What was applied is pending; the closure of a seed is
reverted, also after an object of the seed was given up to another owner; with no boat in flight one
leaves, or is lost on the quay; the one in flight has arrived; or the worker starts anew. -/
inductive Goes (limit : Nat) (b : Boats ι ω) : Boats ι ω → Prop
  | apply (bytes : ι → Nat) (txn : AppliedTxn ι ω) : Goes limit b (b.applied bytes txn)
  | revert (seed : List ι) : Goes limit b (b.reverted seed)
  | yieldTo (object : ι) (seed : List ι) (h : object ∈ seed) :
      Goes limit b ((b.clean object).reverted seed)
  | leave (h : b.inflight = none) :
      Goes limit b { b.ashore (b.cut limit) with inflight := some (b.cut limit).objects }
  | strand (h : b.inflight = none) : Goes limit b (b.ashore (b.cut limit))
  | arrive (objects : List ι) (h : b.inflight = some objects) :
      Goes limit b { b with inflight := none }
  | boot : Goes limit b {}

variable {limit : Nat} {b' : Boats ι ω}

/-- What was given up is off the books, and is among what is reverted. -/
theorem Booked.yieldTo (h : b.Booked) {seed : List ι} (hobject : object ∈ seed) :
    ((b.clean object).reverted seed).Booked := by
  refine (h.clean object).reverted fun o ho => ?_
  have hne : o ≠ object := by
    rintro rfl
    exact ho (Groups.subset_closure _ seed hobject)
  rw [Boats.clean_dirty, Boats.clean_pending, AList.mem_erase, h.keys]
  exact and_iff_right hne

theorem Goes.booked (h : Goes limit b b') (hb : b.Booked) : b'.Booked := by
  cases h with
  | apply bytes txn => exact hb.applied bytes txn
  | revert seed => exact hb.reverted seed
  | yieldTo object seed hobject => exact hb.yieldTo hobject
  | leave => exact (hb.ashore limit).sail _
  | strand => exact hb.ashore limit
  | arrive => exact hb.sail none
  | boot => exact booked_empty

/-- What a worker does to its boats, one thing after the other. -/
abbrev Voyage (limit : Nat) : Boats ι ω → Boats ι ω → Prop := Relation.ReflTransGen (Goes limit)

theorem Goes.voyage (h : Goes limit b b') : Voyage limit b b' := .single h

/-- Whatever else a worker has to do, its books are in order. -/
theorem Voyage.booked (h : Voyage limit b b') (hb : b.Booked) : b'.Booked := by
  induction h with
  | refl => exact hb
  | tail _ hlast ih => exact hlast.booked ih

end Fafo.Boats
