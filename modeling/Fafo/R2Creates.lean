import Fafo.R2Store

/-! Creation at R2 decides, however often requests are tried again and however late they arrive. -/
namespace Fafo.R2

open Interleave
open FsStore (Bytes)
open Listing (Name)

/-- What R2 documents of the requests on one key: each is carried out or not at all; a read that
finds the key returns its bytes; and a conditional put succeeds where the key was not there, and
finds its precondition failed where it was. What 409 means is not relied on. -/
structure Service.Documented {ν : Type} (R : Service ν) : Prop where
  carries : ∀ x r blobs, (R.serve x r blobs).2 = blobs ∨ (R.serve x r blobs).2 = r.effect blobs
  found : ∀ x key blobs, (R.serve x (.get key) blobs).1.status = 200 →
    blobs.lookup key = some (R.serve x (.get key) blobs).1.bytes
  missing : ∀ x key blobs, (R.serve x (.get key) blobs).1.status = 404 → blobs.lookup key = none
  created : ∀ x key bytes blobs, (R.serve x (.put key bytes true) blobs).1.status = 200 →
    blobs.lookup key = none ∧ (R.serve x (.put key bytes true) blobs).2 = blobs.insert key bytes
  present : ∀ x key bytes blobs, (R.serve x (.put key bytes true) blobs).1.status = 412 →
    (blobs.lookup key).isSome

theorem sends_effect (o : PointOp Name Bytes) (blobs : Blobs Name Bytes) :
    (sends o).effect blobs = o.op.effect blobs := by
  cases o with
  | get key => rfl
  | put key bytes => rfl
  | delete key => rfl
  | create key bytes =>
    cases h : blobs.lookup key <;> simp [sends, Request.effect, PointOp.op, StoreOp.effect, h]

/-- No other status is read as an answer. -/
theorem otherwise_ne {α : Type} (op about : Name) (reply : Reply) (v : α) :
    otherwise op about reply ≠ .ok (some v) := by
  simp only [otherwise, bail]
  split <;> simp

theorem onCreate_eq_true {key : Name} {reply : Reply} (h : onCreate key reply = .ok (some true)) :
    reply.status = 200 := by
  unfold onCreate at h
  split_ifs at h with h200 h412
  · exact h200
  · cases h
  · exact absurd h (otherwise_ne _ _ _ _)

theorem onCreate_eq_false {key : Name} {reply : Reply}
    (h : onCreate key reply = .ok (some false)) : reply.status = 412 ∨ reply.status = 409 := by
  unfold onCreate at h
  split_ifs at h with h200 h412
  · cases h
  · exact h412
  · exact absurd h (otherwise_ne _ _ _ _)

theorem onGet_eq {key : Name} {reply : Reply} {v : Option Bytes}
    (h : onGet key reply = .ok (some v)) :
    reply.status = 200 ∧ v = some reply.bytes ∨ reply.status = 404 ∧ v = none := by
  unfold onGet at h
  split_ifs at h with h200 h404
  · cases h
    exact .inl ⟨h200, rfl⟩
  · cases h
    exact .inr ⟨h404, rfl⟩
  · exact absurd h (otherwise_ne _ _ _ _)

section Exec

variable {ν : Type} {R : Service ν} {e : Chance ν} {r : Request} {s : Bucket} {got : Reply}

/-- An answer is what R2 says at the request's arrival. -/
theorem exec_answer (hgot : (R.exec e r s).1 = some got) :
    got = (R.serve e.whim r (R.atArrival s e.late)).1 ∧
      (R.exec e r s).2 = ⟨(R.serve e.whim r (R.atArrival s e.late)).2, r :: s.sent,
        (conflictOf r got).toList ++ s.conflicts⟩ := by
  obtain ⟨late, whim, fate⟩ := e
  cases fate with
  | answered =>
    obtain rfl := Option.some.inj hgot
    exact ⟨rfl, rfl⟩
  | silent arrives => cases hgot

theorem exec_sent (e : Chance ν) (r : Request) (s : Bucket) :
    (R.exec e r s).2.sent = r :: s.sent := by
  obtain ⟨late, whim, fate⟩ := e
  cases fate <;> rfl

theorem exec_conflicts (e : Chance ν) (r : Request) (s : Bucket) :
    s.conflicts ⊆ (R.exec e r s).2.conflicts := by
  obtain ⟨late, whim, fate⟩ := e
  cases fate with
  | answered => exact List.subset_append_right ..
  | silent arrives => exact List.Subset.refl _

theorem exec_blobs (hR : R.Documented) (e : Chance ν) (r : Request) (s : Bucket) :
    (R.exec e r s).2.blobs = R.atArrival s e.late ∨
      (R.exec e r s).2.blobs = r.effect (R.atArrival s e.late) := by
  have hcarries := hR.carries e.whim r (R.atArrival s e.late)
  obtain ⟨late, whim, fate⟩ := e
  cases fate with
  | answered => exact hcarries
  | silent arrives => cases arrives with
    | true => exact hcarries
    | false => exact .inl rfl

end Exec

/-- The operation neither overwrites the key's blob nor deletes it. -/
def Harmless (key : Name) : PointOp Name Bytes → Prop
  | .put k _ => k ≠ key
  | .delete k => k ≠ key
  | _ => True

/-- What the key's blob can become: it stays, or one of those meant for it is there first. -/
def Grows (made : Bytes → Prop) (v v' : Option Bytes) : Prop :=
  v' = v ∨ v = none ∧ ∃ bytes, made bytes ∧ v' = some bytes

namespace Grows

variable {made : Bytes → Prop} {v v' v'' : Option Bytes}

theorem refl : Grows made v v := .inl rfl

theorem trans (h : Grows made v v') (h' : Grows made v' v'') : Grows made v v'' := by
  obtain rfl | ⟨rfl, bytes, hmade, rfl⟩ := h
  · exact h'
  · obtain rfl | ⟨hnone, _⟩ := h'
    · exact .inr ⟨rfl, bytes, hmade, rfl⟩
    · cases hnone

theorem eq_of_some (h : Grows made v v') {bytes : Bytes} (hv : v = some bytes) :
    v' = some bytes := by
  obtain rfl | ⟨rfl, _⟩ := h
  · exact hv
  · cases hv

theorem eq_none (h : Grows made v v') (hv : v' = none) : v = none := by
  obtain rfl | ⟨rfl, _⟩ := h
  · exact hv
  · rfl

end Grows

section Key

variable {key : Name} {made : Bytes → Prop} {o : PointOp Name Bytes}

theorem effect_grows (h : Harmless key o) (hmade : ∀ bytes, o = .create key bytes → made bytes)
    (blobs : Blobs Name Bytes) :
    Grows made (blobs.lookup key) ((o.op.effect blobs).lookup key) := by
  cases o with
  | get k => exact .refl
  | put k bytes =>
    rw [PointOp.op, StoreOp.effect, AList.lookup_insert_ne (Ne.symm h)]
    exact .refl
  | delete k =>
    rw [PointOp.op, StoreOp.effect, AList.lookup_erase_ne (Ne.symm h)]
    exact .refl
  | create k bytes =>
    simp only [PointOp.op, StoreOp.effect]
    split
    · next hnone =>
      by_cases hk : k = key
      · subst hk
        rw [AList.lookup_insert]
        exact .inr ⟨Option.isNone_iff_eq_none.mp hnone, bytes, hmade bytes rfl, rfl⟩
      · rw [AList.lookup_insert_ne (Ne.symm hk)]
        exact .refl
    · exact .refl

/-- The requests that may arrive are those of harmless operations. -/
def Sent (key : Name) (made : Bytes → Prop) (sent : List Request) : Prop :=
  ∀ r ∈ sent, ∃ o, r = sends o ∧ Harmless key o ∧ ∀ bytes, o = .create key bytes → made bytes

variable {ν : Type} {R : Service ν} (hR : R.Documented)
include hR

theorem serve_grows (h : Harmless key o) (hmade : ∀ bytes, o = .create key bytes → made bytes)
    (x : ν) (blobs : Blobs Name Bytes) :
    Grows made (blobs.lookup key) ((R.serve x (sends o) blobs).2.lookup key) := by
  obtain heq | heq := hR.carries x (sends o) blobs
  · rw [heq]
    exact .refl
  · rw [heq, sends_effect]
    exact effect_grows h hmade blobs

theorem arrive_grows {sent : List Request} (h : Sent key made sent) (blobs : Blobs Name Bytes)
    (l : Nat × ν) : Grows made (blobs.lookup key) ((R.arrive sent blobs l).lookup key) := by
  unfold Service.arrive
  split
  · next r hr =>
    obtain ⟨o, rfl, hharmless, hmade⟩ := h r (List.mem_of_getElem? hr)
    exact serve_grows hR hharmless hmade l.2 blobs
  · exact .refl

theorem atArrival_grows {s : Bucket} (hsent : Sent key made s.sent) (late : List (Nat × ν)) :
    Grows made (s.blobs.lookup key) ((R.atArrival s late).lookup key) := by
  obtain ⟨blobs, sent, conflicts⟩ := s
  unfold Service.atArrival
  induction late generalizing blobs with
  | nil => exact .refl
  | cons l late ih => exact (arrive_grows hR hsent blobs l).trans (ih _ hsent)

theorem exec_grows (s : Bucket) (hharmless : Harmless key o)
    (hmade : ∀ bytes, o = .create key bytes → made bytes) (e : Chance ν) :
    Grows made ((R.atArrival s e.late).lookup key)
      ((R.exec e (sends o) s).2.blobs.lookup key) := by
  obtain heq | heq := exec_blobs hR e (sends o) s
  · rw [heq]
    exact .refl
  · rw [heq, sends_effect]
    exact effect_grows hharmless hmade _

end Key

/-- An operation, and what its caller has been told. -/
abbrev Told := Σ o : PointOp Name Bytes, Except Failure o.op.Value

def client (o : PointOp Name Bytes) : Prog wire Told := (carryOut o).bind fun r => .ret ⟨o, r⟩

/-- The operation sends nothing but its request, and what its caller is told is what the last reply
is read as. -/
def Justified (o : PointOp Name Bytes) : Prog wire Told → Prop
  | .ret told => told.1 = o
  | .call r k => r = sends o ∧ ∀ (reply : Option Reply) (v : o.op.Value),
      k reply = .ret ⟨o, .ok v⟩ → ∃ got, reply = some got ∧ reads o got = .ok (some v)

/-- Another attempt is a request, and no attempt is a failure. -/
theorem retries_ne_ok (o : PointOp Name Bytes) (left : Nat) (last : Failure) (v : o.op.Value) :
    ((withRetries (request (sends o) (reads o)) left last).bind fun r =>
      .ret (⟨o, r⟩ : Told)) ≠ .ret ⟨o, .ok v⟩ := by
  cases left with
  | zero =>
    intro h
    cases h
  | succ left =>
    intro h
    cases h

theorem justified_retries (o : PointOp Name Bytes) (left : Nat) (last : Failure) :
    ((withRetries (request (sends o) (reads o)) left last).bind fun r =>
      .ret (⟨o, r⟩ : Told)).Always (Justified o) := by
  induction left generalizing last with
  | zero => exact rfl
  | succ left ih =>
    refine ⟨⟨rfl, fun reply v hret => ?_⟩, fun reply => ?_⟩
    · change ((afterAttempt _ (received (reads o) reply)).bind _) = _ at hret
      cases hrec : received (reads o) reply with
      | error err =>
        rw [hrec] at hret
        exact absurd hret (retries_ne_ok o left err v)
      | ok got =>
        rw [hrec] at hret
        cases got with
        | none => exact absurd hret (retries_ne_ok o left .transient v)
        | some w =>
          cases reply with
          | none => cases hrec
          | some got =>
            cases hret
            exact ⟨got, rfl, hrec⟩
    · change Prog.Always _ ((afterAttempt _ (received (reads o) reply)).bind _)
      cases received (reads o) reply with
      | error err => exact ih err
      | ok got =>
        cases got with
        | none => exact ih .transient
        | some w => exact rfl

variable {ι : Type} [DecidableEq ι] {calls : ι → PointOp Name Bytes} {key : Name}

/-- Any number of calls at the same time. -/
def callers (calls : ι → PointOp Name Bytes) (s : Bucket) : Config wire Bucket ι Told :=
  ⟨s, fun i => .start (client (calls i))⟩

/-- What a caller has been told. -/
def Hears (c : Config wire Bucket ι Told) (i : ι) (told : Told) : Prop :=
  (c.procs i).prog = .ret told

/-- What the callers know of a key that is only created: at most one of them has created it, its
bytes are there for good, and nobody reads anything else. Who is told that the key is there finds
it, unless R2 has met a conditional put of the key with 409. -/
structure Agreed (key : Name) (calls : ι → PointOp Name Bytes) (before : Option Bytes)
    (c : Config wire Bucket ι Told) : Prop where
  now : Grows (fun bytes => ∃ i, calls i = .create key bytes) before (c.shared.blobs.lookup key)
  created : ∀ i bytes, Hears c i ⟨.create key bytes, .ok true⟩ →
    before = none ∧ c.shared.blobs.lookup key = some bytes
  once : ∀ i j bytes bytes', Hears c i ⟨.create key bytes, .ok true⟩ →
    Hears c j ⟨.create key bytes', .ok true⟩ → i = j
  late : ∀ i bytes, Hears c i ⟨.create key bytes, .ok false⟩ →
    (c.shared.blobs.lookup key).isSome ∨ key ∈ c.shared.conflicts
  read : ∀ i bytes, Hears c i ⟨.get key, .ok (some bytes)⟩ →
    c.shared.blobs.lookup key = some bytes
  missed : ∀ i, Hears c i ⟨.get key, .ok none⟩ → before = none

structure Running (key : Name) (calls : ι → PointOp Name Bytes) (before : Option Bytes)
    (c : Config wire Bucket ι Told) : Prop extends Agreed key calls before c where
  stages : ∀ i, (c.procs i).prog.Always (Justified (calls i))
  sent : Sent key (fun bytes => ∃ i, calls i = .create key bytes) c.shared.sent

variable {ν : Type} {R : Service ν} {before : Option Bytes} {c : Config wire Bucket ι Told}

/-- What a caller has been told after a step it was told before, or it is what the reply was read as
just now. -/
theorem hears_step {i : ι} {e : Chance ν} {r : Request} {k : Option Reply → Prog wire Told}
    (hstages : ∀ i, (c.procs i).prog.Always (Justified (calls i)))
    (hprog : (c.procs i).prog = .call (r : wire.Op) k) {j : ι} {o : PointOp Name Bytes}
    {v : o.op.Value} (hears : Hears (c.step R.endpoint i e) j ⟨o, .ok v⟩) :
    Hears c j ⟨o, .ok v⟩ ∨ j = i ∧ ∃ got, (R.exec e (sends o) c.shared).1 = some got ∧
      (c.step R.endpoint i e).shared = (R.exec e (sends o) c.shared).2 ∧
      reads o got = .ok (some v) := by
  by_cases hj : j = i
  · subst hj
    have hstage := hstages j
    rw [hprog] at hstage
    obtain ⟨⟨rfl, hjust⟩, hrest⟩ := hstage
    rw [Hears, Config.step_prog, hprog, Prog.move] at hears
    change k (R.exec e (sends (calls j)) c.shared).1 = _ at hears
    have hlast := hrest (R.exec e (sends (calls j)) c.shared).1
    rw [hears] at hlast
    obtain rfl : o = calls j := hlast
    obtain ⟨got, hgot, hread⟩ := hjust _ v hears
    rw [Config.step_shared, hprog, Prog.move]
    exact .inr ⟨rfl, got, hgot, rfl, hread⟩
  · rw [Hears, Config.step_procs_ne _ _ hj] at hears
    exact .inl hears

/-- Who is told now that it has created the key was the first. -/
theorem hears_created_step (hR : R.Documented) {i : ι} {e : Chance ν} {r : Request}
    {k : Option Reply → Prog wire Told}
    (hstages : ∀ i, (c.procs i).prog.Always (Justified (calls i)))
    (hprog : (c.procs i).prog = .call (r : wire.Op) k) {j : ι} {bytes : Bytes}
    (hears : Hears (c.step R.endpoint i e) j ⟨.create key bytes, .ok true⟩) :
    Hears c j ⟨.create key bytes, .ok true⟩ ∨ j = i ∧
      (R.atArrival c.shared e.late).lookup key = none ∧
        (c.step R.endpoint i e).shared.blobs.lookup key = some bytes := by
  obtain hold | ⟨rfl, got, hgot, hstep, hread⟩ := hears_step hstages hprog hears
  · exact .inl hold
  · obtain ⟨rfl, heq⟩ := exec_answer hgot
    obtain ⟨hnone, hinsert⟩ := hR.created _ _ _ _ (onCreate_eq_true hread)
    rw [hstep, heq]
    refine .inr ⟨rfl, hnone, ?_⟩
    change (R.serve e.whim (.put key bytes true) _).2.lookup key = _
    rw [hinsert]
    exact AList.lookup_insert _

/-- Who is told now that the key is there finds it when its request arrives, or R2 said 409. -/
theorem hears_present_step (hR : R.Documented) {i : ι} {e : Chance ν} {r : Request}
    {k : Option Reply → Prog wire Told}
    (hstages : ∀ i, (c.procs i).prog.Always (Justified (calls i)))
    (hprog : (c.procs i).prog = .call (r : wire.Op) k) {j : ι} {bytes : Bytes}
    (hears : Hears (c.step R.endpoint i e) j ⟨.create key bytes, .ok false⟩) :
    Hears c j ⟨.create key bytes, .ok false⟩ ∨
      ((R.atArrival c.shared e.late).lookup key).isSome ∨
        key ∈ (c.step R.endpoint i e).shared.conflicts := by
  obtain hold | ⟨rfl, got, hgot, hstep, hread⟩ := hears_step hstages hprog hears
  · exact .inl hold
  · obtain ⟨hserved, heq⟩ := exec_answer hgot
    obtain h412 | h409 := onCreate_eq_false hread
    · rw [hserved] at h412
      exact .inr (.inl (hR.present _ _ _ _ h412))
    · have hmet : conflictOf (sends (.create key bytes)) got = some key := if_pos h409
      rw [hstep, heq, hmet]
      exact .inr (.inr List.mem_cons_self)

theorem running_step (hR : R.Documented) (hcalls : ∀ i, Harmless key (calls i))
    (h : Running key calls before c) (i : ι) (e : Chance ν) :
    Running key calls before (c.step R.endpoint i e) := by
  cases hprog : (c.procs i).prog with
  | ret told =>
    rw [Config.step, hprog]
    exact h
  | call r k =>
    have hstage := h.stages i
    rw [hprog] at hstage
    obtain ⟨⟨rfl, _⟩, hrest⟩ := hstage
    have hshared : (c.step R.endpoint i e).shared = (R.exec e (sends (calls i)) c.shared).2 := by
      rw [Config.step_shared, hprog, Prog.move]
      rfl
    have harrival := atArrival_grows hR h.sent e.late
    have hmade : ∀ bytes, calls i = .create key bytes → ∃ i, calls i = .create key bytes :=
      fun _ hcall => ⟨i, hcall⟩
    have hexec := exec_grows hR c.shared (hcalls i) hmade e
    have hconflicts := exec_conflicts (R := R) e (sends (calls i)) c.shared
    rw [← hshared] at hexec hconflicts
    have hgrows := harrival.trans hexec
    refine ⟨⟨h.now.trans hgrows, ?_, ?_, ?_, ?_, ?_⟩, ?_, ?_⟩
    · intro j bytes hears
      obtain hold | ⟨_, hnone, hthere⟩ := hears_created_step hR h.stages hprog hears
      · exact ⟨(h.created j bytes hold).1, hgrows.eq_of_some (h.created j bytes hold).2⟩
      · exact ⟨h.now.eq_none (harrival.eq_none hnone), hthere⟩
    · intro j j' bytes bytes' hears hears'
      -- The key had no blob when the later of two was told.
      have hclash {a : ι} {b : Bytes} (hold : Hears c a ⟨.create key b, .ok true⟩)
          (hnone : (R.atArrival c.shared e.late).lookup key = none) : False := by
        have hsome := harrival.eq_of_some (h.created a b hold).2
        rw [hnone] at hsome
        cases hsome
      obtain hold | ⟨rfl, hnone, _⟩ := hears_created_step hR h.stages hprog hears
      · obtain hold' | ⟨_, hnone, _⟩ := hears_created_step hR h.stages hprog hears'
        · exact h.once j j' bytes bytes' hold hold'
        · exact (hclash hold hnone).elim
      · obtain hold' | ⟨rfl, _⟩ := hears_created_step hR h.stages hprog hears'
        · exact (hclash hold' hnone).elim
        · rfl
    · intro j bytes hears
      obtain hold | hthere | hconflict := hears_present_step hR h.stages hprog hears
      · obtain hthere | hconflict := h.late j bytes hold
        · obtain ⟨v, hv⟩ := Option.isSome_iff_exists.mp hthere
          rw [hgrows.eq_of_some hv]
          exact .inl rfl
        · exact .inr (hconflicts hconflict)
      · obtain ⟨v, hv⟩ := Option.isSome_iff_exists.mp hthere
        rw [hexec.eq_of_some hv]
        exact .inl rfl
      · exact .inr hconflict
    · intro j bytes hears
      obtain hold | ⟨rfl, got, hgot, hstep, hread⟩ := hears_step h.stages hprog hears
      · exact hgrows.eq_of_some (h.read j bytes hold)
      · obtain ⟨rfl, _⟩ := exec_answer hgot
        obtain ⟨h200, hbytes⟩ | ⟨_, hnone⟩ := onGet_eq hread
        · exact hexec.eq_of_some ((hR.found _ _ _ h200).trans hbytes.symm)
        · cases hnone
    · intro j hears
      obtain hold | ⟨rfl, got, hgot, hstep, hread⟩ := hears_step h.stages hprog hears
      · exact h.missed j hold
      · obtain ⟨rfl, _⟩ := exec_answer hgot
        obtain ⟨_, hbytes⟩ | ⟨h404, _⟩ := onGet_eq hread
        · cases hbytes
        · exact h.now.eq_none (harrival.eq_none (hR.missing _ _ _ h404))
    · intro j
      by_cases hj : j = i
      · subst hj
        rw [Config.step_prog, hprog]
        exact hrest _
      · rw [Config.step_procs_ne _ _ hj]
        exact h.stages j
    · rw [hshared, exec_sent]
      intro req hreq
      obtain rfl | hmem := List.mem_cons.mp hreq
      · exact ⟨calls i, rfl, hcalls i, hmade⟩
      · exact h.sent req hmem

theorem running_run (hR : R.Documented) (hcalls : ∀ i, Harmless key (calls i))
    (h : Running key calls before c) (moves : List (ι × Chance ν)) :
    Running key calls before (c.run R.endpoint moves) := by
  induction moves generalizing c with
  | nil => exact h
  | cons m moves ih => exact ih (running_step hR hcalls h m.1 m.2)

/-- However many callers create and read a key that nobody puts or deletes, whatever requests fail,
and however late or often they arrive. -/
theorem create_decides (hR : R.Documented) (hcalls : ∀ i, Harmless key (calls i)) {s : Bucket}
    (hsent : s.sent = []) (moves : List (ι × Chance ν)) :
    Agreed key calls (s.blobs.lookup key) ((callers calls s).run R.endpoint moves) := by
  have hnothing {i : ι} {told : Told} : ¬ Hears (callers calls s) i told := by
    intro hears
    cases hears
  have hstart : Running key calls (s.blobs.lookup key) (callers calls s) := by
    refine ⟨⟨.refl, ?_, ?_, ?_, ?_, ?_⟩, ?_, ?_⟩
    · exact fun i bytes hears => absurd hears hnothing
    · exact fun i j bytes bytes' hears => absurd hears hnothing
    · exact fun i bytes hears => absurd hears hnothing
    · exact fun i bytes hears => absurd hears hnothing
    · exact fun i hears => absurd hears hnothing
    · exact fun i => justified_retries (calls i) retries .noAttempts
    · intro r hr
      rw [callers, hsent] at hr
      cases hr
  exact (running_run hR hcalls hstart moves).toAgreed

/-- What is up to a service: whether it serves a request, and how a conditional put that finds the
key is told. -/
inductive Whim where
  | serve
  | conflict
  | unavailable
  deriving DecidableEq

def Request.status (x : Whim) (blobs : Blobs Name Bytes) : Request → Nat
  | get key => if (blobs.lookup key).isSome then 200 else 404
  | put key _ true =>
    if (blobs.lookup key).isSome then if x = .conflict then 409 else 412 else 200
  | put _ _ false => 200
  | delete _ => 204
  | list _ _ => 501

/-- What a read that is served finds. -/
def Request.content (blobs : Blobs Name Bytes) : Request → Bytes
  | get key => (blobs.lookup key).getD []
  | _ => []

/-- A service that behaves as documented, without listings. -/
def shelf : Service Whim where
  serve x r blobs :=
    if x = .unavailable then ({ status := 503 }, blobs)
    else ({ status := r.status x blobs, bytes := r.content blobs }, r.effect blobs)

theorem shelf_unavailable (r : Request) (blobs : Blobs Name Bytes) :
    shelf.serve .unavailable r blobs = ({ status := 503 }, blobs) := rfl

theorem shelf_serve {x : Whim} (hx : x ≠ .unavailable) (r : Request) (blobs : Blobs Name Bytes) :
    shelf.serve x r blobs =
      ({ status := r.status x blobs, bytes := r.content blobs }, r.effect blobs) := if_neg hx

/-- What a status other than 503 says is said by a service that serves. -/
theorem shelf_status {x : Whim} {r : Request} {blobs : Blobs Name Bytes} {status : Nat}
    (h : (shelf.serve x r blobs).1.status = status) (hstatus : status ≠ 503) :
    r.status x blobs = status ∧ shelf.serve x r blobs =
      ({ status := r.status x blobs, bytes := r.content blobs }, r.effect blobs) := by
  have hx : x ≠ .unavailable := by
    rintro rfl
    rw [shelf_unavailable] at h
    exact hstatus h.symm
  rw [shelf_serve hx] at h
  exact ⟨h, shelf_serve hx r blobs⟩

theorem shelf_documented : shelf.Documented where
  carries x r blobs := by
    by_cases hx : x = .unavailable
    · subst hx
      exact .inl (congrArg Prod.snd (shelf_unavailable r blobs))
    · exact .inr (congrArg Prod.snd (shelf_serve hx r blobs))
  found x key blobs h := by
    obtain ⟨hstatus, heq⟩ := shelf_status h (by decide)
    rw [heq, Request.content]
    cases hkey : blobs.lookup key with
    | none => simp [Request.status, hkey] at hstatus
    | some bytes => rfl
  missing x key blobs h := by
    obtain ⟨hstatus, _⟩ := shelf_status h (by decide)
    cases hkey : blobs.lookup key with
    | none => rfl
    | some bytes => simp [Request.status, hkey] at hstatus
  created x key bytes blobs h := by
    obtain ⟨hstatus, heq⟩ := shelf_status h (by decide)
    cases hkey : blobs.lookup key with
    | none =>
      rw [heq]
      exact ⟨rfl, by simp [Request.effect, hkey]⟩
    | some old =>
      simp only [Request.status, hkey, Option.isSome_some, if_true] at hstatus
      split_ifs at hstatus <;> cases hstatus
  present x key bytes blobs h := by
    obtain ⟨hstatus, _⟩ := shelf_status h (by decide)
    cases hkey : blobs.lookup key with
    | none => simp [Request.status, hkey] at hstatus
    | some old => rfl

/-- One creates the key but never hears of it, tries again, and is told that the key is there; the
other reads it, and creates it in vain. The first request arrives once more. -/
def asked : Fin 3 → PointOp Name Bytes
  | 0 => .create ['a'] [1]
  | 1 => .create ['a'] [2]
  | 2 => .get ['a']

def lostAnswer : List (Fin 3 × Chance Whim) :=
  [(0, { whim := .serve, fate := .silent true }), (2, { whim := .serve }),
    (1, { whim := .conflict }), (0, { whim := .serve, late := [(2, .serve)] })]

theorem create_decides_lostAnswer :
    Agreed ['a'] asked none ((callers asked {}).run shelf.endpoint lostAnswer) := by
  have hharmless : ∀ i, Harmless ['a'] (asked i) := by
    simp [Fin.forall_fin_succ, asked, Harmless]
  have hsent : Bucket.sent {} = [] := rfl
  exact create_decides shelf_documented hharmless hsent lostAnswer

example :
    Hears ((callers asked {}).run shelf.endpoint lostAnswer) 0 ⟨.create ['a'] [1], .ok false⟩ ∧
      Hears ((callers asked {}).run shelf.endpoint lostAnswer) 1
        ⟨.create ['a'] [2], .ok false⟩ ∧
      Hears ((callers asked {}).run shelf.endpoint lostAnswer) 2 ⟨.get ['a'], .ok (some [1])⟩ :=
  ⟨rfl, rfl, rfl⟩

end Fafo.R2
