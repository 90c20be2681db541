import Mathlib.Order.Bounds.Basic
import Fafo.Bookkeeping
import Fafo.Cutting
import Fafo.Polls

/-! What a revert takes along: the seed, and whatever hangs together with it. -/
namespace Fafo

namespace Boats

variable {ι ω : Type} [DecidableEq ι] {b : Boats ι ω} {seed : List ι} {object : ι}

/-- A transaction that meets the closure lies in it. -/
theorem participants_closure {i : Nat}
    (h : Groups.Meets (b.participantsAt i) (b.closure seed)) :
    b.participantsAt i ⊆ b.closure seed := by
  intro o ho
  obtain ⟨x, hx, hin⟩ := h
  obtain ⟨txn, htxn, hxt⟩ := mem_participantsAt.mp hx
  obtain ⟨txn', htxn', hot⟩ := mem_participantsAt.mp ho
  rw [htxn] at htxn'
  cases htxn'
  exact Groups.closure_closed _ seed txn.participants
    (List.mem_map_of_mem (List.mem_of_getElem? htxn)) ⟨x, hxt, hin⟩ hot

/-- Transactions that hang together are reverted together. -/
theorem meets_of_linked {i j : Nat} (h : Linked (b.pending.map AppliedTxn.participants) i j) :
    Groups.Meets (b.participantsAt i) (b.closure seed) ↔
      Groups.Meets (b.participantsAt j) (b.closure seed) := by
  induction h with
  | rel i j hmet =>
    obtain ⟨o, hi, hj⟩ := hmet
    rw [mem_having] at hi hj
    constructor
    · exact fun hmeets => ⟨o, hj, participants_closure hmeets hi⟩
    · exact fun hmeets => ⟨o, hi, participants_closure hmeets hj⟩
  | refl i => exact Iff.rfl
  | symm i j _ ih => exact ih.symm
  | trans i j k _ _ ih ih' => exact ih.trans ih'

/-- The components with an object of the seed. -/
def reached (b : Boats ι ω) (seed : List ι) : List (List Nat) :=
  b.components.filter fun c => Groups.Meets (b.objectsOf c) seed

theorem mem_reached {component : List Nat} : component ∈ b.reached seed ↔
    component ∈ b.components ∧ Groups.Meets (b.objectsOf component) seed := by
  rw [reached, List.mem_filter, decide_eq_true_eq]

/-- A revert takes the seed and the components that meet it. -/
theorem mem_closure_iff_reached :
    object ∈ b.closure seed ↔
      object ∈ seed ∨ ∃ component ∈ b.reached seed, object ∈ b.objectsOf component := by
  constructor
  · intro hin
    have hclosed : Groups.Closed (b.pending.map AppliedTxn.participants)
        (seed ++ (b.reached seed).flatMap b.objectsOf) := by
      rintro g hg ⟨x, hx, hmem⟩ o ho
      obtain ⟨txn, htxn, rfl⟩ := List.mem_map.mp hg
      obtain ⟨i, hlt, hi⟩ := List.mem_iff_getElem.mp htxn
      have hi : b.pending[i]? = some txn := List.getElem?_eq_some_iff.mpr ⟨hlt, hi⟩
      have hxi : x ∈ b.participantsAt i := mem_participantsAt.mpr ⟨txn, hi, hx⟩
      have hoi : o ∈ b.participantsAt i := mem_participantsAt.mpr ⟨txn, hi, ho⟩
      refine List.mem_append_right _ (List.mem_flatMap.mpr ?_)
      rcases List.mem_append.mp hmem with hseed | hreached
      · -- the transaction itself reaches the seed
        have hrange : i < (b.pending.map AppliedTxn.participants).length := by
          rwa [List.length_map]
        obtain ⟨component, hc, hic⟩ := mem_txnComponents hrange
        refine ⟨component, mem_reached.mpr ⟨hc, x, ?_, hseed⟩, ?_⟩
        · exact mem_objectsOf.mpr ⟨i, hic, hxi⟩
        · exact mem_objectsOf.mpr ⟨i, hic, hoi⟩
      · -- it hangs together with one that does
        obtain ⟨component, hc, hxc⟩ := List.mem_flatMap.mp hreached
        obtain ⟨j, hj, hxj⟩ := mem_objectsOf.mp hxc
        have hlinked : Linked (b.pending.map AppliedTxn.participants) j i :=
          .rel _ _ ⟨x, mem_having.mpr hxj, mem_having.mpr hxi⟩
        have hrange : i < (b.pending.map AppliedTxn.participants).length := by
          rwa [List.length_map]
        have hic : i ∈ component :=
          ((mem_component (mem_reached.mp hc).1).2.2 j hj i).mpr ⟨hrange, hlinked⟩
        exact ⟨component, hc, mem_objectsOf.mpr ⟨i, hic, hoi⟩⟩
    have hall := Groups.closure_subset hclosed
      (fun o (ho : o ∈ seed) => List.mem_append_left _ ho) hin
    rcases List.mem_append.mp hall with hseed | hreached
    · exact .inl hseed
    · exact .inr (List.mem_flatMap.mp hreached)
  · rintro (hseed | ⟨component, hc, ho⟩)
    · exact Groups.subset_closure _ seed hseed
    · obtain ⟨hc, x, hx, hseed⟩ := mem_reached.mp hc
      obtain ⟨i, hi, hxi⟩ := mem_objectsOf.mp hx
      obtain ⟨j, hj, hoj⟩ := mem_objectsOf.mp ho
      have hlinked := (((mem_component hc).2.2 i hi j).mp hj).2
      have hmeets : Groups.Meets (b.participantsAt i) (b.closure seed) :=
        ⟨x, hxi, Groups.subset_closure _ seed hseed⟩
      exact participants_closure ((meets_of_linked hlinked).mp hmeets) hoj

end Boats

namespace Polls

variable {ι Img Sql Row : Type} [LinearOrder ι] {s : State ι Img Sql Row} {seed : List ι}

/-- No pending transaction straddles the set. -/
def Unsplit (s : State ι Img Sql Row) (t : Set ι) : Prop :=
  ∀ txn ∈ s.boats.pending, (∃ o ∈ txn.participants, o ∈ t) → ∀ o ∈ txn.participants, o ∈ t

/-- `s'` is `s` with just these objects reverted. -/
structure Reverted (s : State ι Img Sql Row) (reverted : List ι) (s' : State ι Img Sql Row) :
    Prop where
  retained : s'.boats.pending =
    s.boats.pending.filter fun txn => ¬ ∃ o ∈ txn.participants, o ∈ reverted
  apart : ∀ txn ∈ s'.boats.pending, ∀ o ∈ txn.participants, o ∉ reverted
  outbox : s'.outbox = s.outbox ++
    ((s.boats.pending.filter fun txn => ∃ o ∈ txn.participants, o ∈ reverted).filterMap
      fun txn => txn.waiter.map fun w => ⟨w.1, .error (.internal "state reverted; retry")⟩) ++
    (s.pollsOn reverted).map fun q =>
      ⟨State.pollAsker q.1 q.2, .error (.internal "state reverted; re-poll")⟩
  polls : s'.polls = s.polls.filter fun q => q.1 ∉ reverted
  cold : ∀ o ∈ reverted, s'.live o = none ∧ s'.logSeq o = none ∧ o ∉ s'.boats.dirty
  elsewhere : ∀ o ∉ reverted, s'.live o = s.live o ∧ s'.logSeq o = s.logSeq o ∧
    s'.boats.dirty.lookup o = s.boats.dirty.lookup o
  inflight : s'.boats.inflight = s.boats.inflight

/-- What a revert of the seed comes to: the loop ends with the least set that holds the seed and
splits no pending transaction, and just that is reverted. -/
structure BlastRadius (s : State ι Img Sql Row) (seed : List ι) (reverted : List ι)
    (s' : State ι Img Sql Row) : Prop extends Reverted s reverted s' where
  ends : ∀ passes ≥ s.boats.pending.length,
    Groups.close (s.boats.pending.map AppliedTxn.participants) passes seed = reverted
  least : IsLeast {t : Set ι | (∀ o ∈ seed, o ∈ t) ∧ Unsplit s t} {o | o ∈ reverted}
  components : ∀ o, o ∈ reverted ↔ o ∈ seed ∨
    ∃ c ∈ s.boats.components, (∃ x ∈ s.boats.objectsOf c, x ∈ seed) ∧ o ∈ s.boats.objectsOf c

theorem reverted_revertClosure (s : State ι Img Sql Row) (seed : List ι) :
    Reverted s (s.boats.closure seed) (s.revertClosure seed) where
  retained := Boats.reverted_pending s.boats seed
  apart txn htxn o ho hin := by
    have hpending : txn ∈ (s.boats.reverted seed).pending := htxn
    rw [Boats.reverted_pending, List.mem_filter, decide_eq_true_eq] at hpending
    exact hpending.2 ⟨o, ho, hin⟩
  outbox := by
    have hkilled : (s.boats.killed seed).filterMap (fun t => t.waiter.map Prod.fst) =
        (s.boats.pending.filter fun txn =>
          ∃ o ∈ txn.participants, o ∈ s.boats.closure seed).filterMap
            fun txn => txn.waiter.map Prod.fst := rfl
    have hsent : (s.revertClosure seed).outbox = s.outbox ++
        ((s.boats.killed seed).filterMap fun t => t.waiter.map Prod.fst).map
          (fun a => ⟨a, .error (.internal "state reverted; retry")⟩) ++
        ((s.pollsOn (s.boats.closure seed)).map fun q => State.pollAsker q.1 q.2).map
          (fun a => ⟨a, .error (.internal "state reverted; re-poll")⟩) := rfl
    rw [hsent, hkilled, List.map_filterMap, List.map_map]
    simp only [Option.map_map]
    rfl
  polls := rfl
  cold o ho := by
    refine ⟨if_pos ho, if_pos ho, ?_⟩
    exact fun hdirty => (Boats.mem_cleanAll o).mp hdirty |>.1 ho
  elsewhere o ho := by
    refine ⟨if_neg ho, if_neg ho, ?_⟩
    exact (Boats.lookup_cleanAll _ _ o).trans (if_neg ho)
  inflight := Boats.reverted_inflight s.boats seed

/-- A revert takes just the blast radius of its seed. -/
theorem revertClosure_blastRadius (s : State ι Img Sql Row) (seed : List ι) :
    BlastRadius s seed (s.boats.closure seed) (s.revertClosure seed) where
  toReverted := reverted_revertClosure s seed
  ends passes hpasses := by
    refine Groups.close_eq_closure ?_ seed
    rwa [List.length_map]
  least := by
    refine ⟨⟨fun o ho => Groups.subset_closure _ seed ho, ?_⟩, ?_⟩
    · rintro txn htxn ⟨o, ho, hin⟩ x hx
      exact Groups.closure_closed _ seed txn.participants (List.mem_map_of_mem htxn) ⟨o, ho, hin⟩ hx
    · rintro t ⟨hseed, hunsplit⟩ o ho
      refine Groups.close_within (fun g hg hmeets => ?_) _ hseed o ho
      obtain ⟨txn, htxn, rfl⟩ := List.mem_map.mp hg
      exact hunsplit txn htxn hmeets
  components o := by
    rw [Boats.mem_closure_iff_reached]
    simp only [Boats.mem_reached, and_assoc]
    rfl

end Polls

end Fafo
