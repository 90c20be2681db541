import Mathlib.Data.Prod.Lex
import Mathlib.Algebra.Group.Nat.Defs
import Fafo.Store

/-! Durable ownership claims: the checkpoints, and the scan that ranks what they say. -/
namespace Fafo

open Interleave

/-- A worker's durable state: what it owns, and what it released to whom, each with the handoff
generation. -/
structure Checkpoint (ι : Type) where
  owned : ι → Option Nat
  transit : ι → Option (Nat × Nat)

/-- A key under `_worker/`: a worker's checkpoint, or a name that does not parse as one. -/
inductive WorkerKey where
  | checkpoint (worker : Nat)
  | other (name : Nat)
  deriving DecidableEq

/-- What such a key holds; `garbled` does not deserialize. -/
inductive WorkerBlob (ι : Type) where
  | checkpoint (cp : Checkpoint ι)
  | garbled

/-- The durable truth about who claims an object. -/
inductive Claim where
  | owned (worker generation : Nat)
  | transit (destination generation : Nat)
  | unclaimed
  deriving DecidableEq, Repr

def usizeMax : Nat := 2 ^ 64 - 1

def u64Max : Nat := 2 ^ 64 - 1

/-- The answer when the truth cannot be read: claim nothing, adopt nothing. -/
def Claim.blocked : Claim := .transit usizeMax u64Max

namespace Claim

/-- The highest generation wins; at equal generation an admitted claim beats the giver's marker. -/
def rank : Claim → Nat ×ₗ Nat
  | owned _ g => toLex (g, 1)
  | transit _ g => toLex (g, 0)
  | unclaimed => toLex (0, 0)

/-- `consider`: keep the best so far unless this one outranks it. -/
def consider (best : Option Claim) (c : Claim) : Option Claim :=
  match best with
  | none => some c
  | some b => if b.rank < c.rank then some c else some b

end Claim

variable {ι N : Type}

/-- What one checkpoint says of an object, in the order it is considered. -/
def Checkpoint.claims (cp : Checkpoint ι) (object : ι) (worker : Nat) : List Claim :=
  ((cp.owned object).map (Claim.owned worker)).toList ++
    ((cp.transit object).map fun (dest, g) => Claim.transit dest g).toList

/-- The loop over the listed keys: a name that does not parse, a read that fails or finds nothing,
and bytes that do not deserialize are all skipped. -/
def claimScan (object : ι) : List WorkerKey → Option Claim →
    Task WorkerKey (WorkerBlob ι) N Claim
  | [], best => .ret (best.getD .unclaimed)
  | .other _ :: keys, best => claimScan object keys best
  | .checkpoint w :: keys, best =>
    (Store.get (.checkpoint w)).bind fun r =>
      match r with
      | .ok (some (.checkpoint cp)) =>
        claimScan object keys ((cp.claims object w).foldl Claim.consider best)
      | _ => claimScan object keys best

/-- The durable truth about who claims an object, from the checkpoint set. -/
def durableClaim (object : ι) : Task WorkerKey (WorkerBlob ι) N Claim :=
  (Store.list fun _ => true).bind fun r =>
    match r with
    | .ok keys => claimScan object keys none
    | .error _ => .ret .blocked

/-- The first of the highest-ranked claims. -/
def Foremost (cs : List Claim) (c : Claim) : Prop :=
  ∃ before after, cs = before ++ c :: after ∧ (∀ x ∈ before, x.rank < c.rank) ∧
    ∀ x ∈ after, x.rank ≤ c.rank

theorem Foremost.mem {cs : List Claim} {c : Claim} (h : Foremost cs c) : c ∈ cs := by
  obtain ⟨before, after, rfl, _, _⟩ := h
  simp

theorem Foremost.rank_le {cs : List Claim} {c x : Claim} (h : Foremost cs c) (hx : x ∈ cs) :
    x.rank ≤ c.rank := by
  obtain ⟨before, after, rfl, hbefore, hafter⟩ := h
  rcases List.mem_append.mp hx with hx | hx
  · exact (hbefore x hx).le
  · rcases List.mem_cons.mp hx with rfl | hx
    · exact le_rfl
    · exact hafter x hx

theorem Foremost.unique {cs : List Claim} {a b : Claim} (ha : Foremost cs a)
    (hb : Foremost cs b) : a = b := by
  have hrank : a.rank = b.rank := le_antisymm (hb.rank_le ha.mem) (ha.rank_le hb.mem)
  obtain ⟨before, after, rfl, hbefore, _⟩ := ha
  obtain ⟨before', after', hsplit, hbefore', _⟩ := hb
  rcases List.append_eq_append_iff.mp hsplit with ⟨as, rfl, htail⟩ | ⟨bs, rfl, htail⟩
  · cases as with
    | nil => exact (List.cons.inj htail).1
    | cons x as =>
      obtain ⟨rfl, _⟩ := List.cons.inj htail
      exact absurd hrank (hbefore' a (by simp)).ne
  · cases bs with
    | nil => exact (List.cons.inj htail).1.symm
    | cons x bs =>
      obtain ⟨rfl, _⟩ := List.cons.inj htail
      exact absurd hrank.symm (hbefore b (by simp)).ne

theorem Foremost.snoc {cs : List Claim} {b c : Claim} (h : Foremost cs b) :
    Foremost (cs ++ [c]) (if b.rank < c.rank then c else b) := by
  split_ifs with hlt
  · exact ⟨cs, [], rfl, fun x hx => (h.rank_le hx).trans_lt hlt, by simp⟩
  · obtain ⟨before, after, rfl, hbefore, hafter⟩ := h
    refine ⟨before, after ++ [c], by simp, hbefore, fun x hx => ?_⟩
    rcases List.mem_append.mp hx with hx | hx
    · exact hafter x hx
    · rw [List.mem_singleton.mp hx]
      exact not_lt.mp hlt

/-- Considering claims one by one keeps the foremost of them. -/
theorem foremost_consider (cs ds : List Claim) (best : Option Claim)
    (h : ∀ b, best = some b → Foremost ds b) (hnone : best = none → ds = []) :
    (∀ b, cs.foldl Claim.consider best = some b → Foremost (ds ++ cs) b) ∧
      (cs.foldl Claim.consider best = none → ds ++ cs = []) := by
  induction cs generalizing best ds with
  | nil => simpa using ⟨h, hnone⟩
  | cons c cs ih =>
    have hnext : ∀ b, Claim.consider best c = some b → Foremost (ds ++ [c]) b := by
      intro b hb
      cases best with
      | none =>
        rw [hnone rfl]
        cases hb
        exact ⟨[], [], rfl, by simp, by simp⟩
      | some b' =>
        have heq : (if b'.rank < c.rank then c else b') = b := by
          simp only [Claim.consider] at hb
          split_ifs at hb ⊢ <;> simpa using hb
        exact heq ▸ (h b' rfl).snoc
    have hsome : Claim.consider best c = none → ds ++ [c] = [] := by
      cases best with
      | none => simp [Claim.consider]
      | some b =>
        simp only [Claim.consider]
        split_ifs <;> simp
    have hrest := ih (ds ++ [c]) (Claim.consider best c) hnext hsome
    simpa using hrest

/-- How the read of one listed checkpoint goes. -/
inductive ReadOf where
  | whole
  | failed
  | missing
  | garbled
  deriving DecidableEq, Repr

/-- The answers of a store whose checkpoints are `content`, listed and read as given. -/
def scanReplies (content : Nat → Checkpoint ι) (reading : Nat → ReadOf)
    (listing : Except Error (List WorkerKey)) :
    (o : NodeOp WorkerKey (WorkerBlob ι) N) → o.Answer
  | .store (.list _) => listing
  | .store (.get (.checkpoint w)) =>
    match reading w with
    | .whole => .ok (some (.checkpoint (content w)))
    | .failed => .error .unavailable
    | .missing => .ok none
    | .garbled => .ok (some .garbled)
  | .store (.get (.other _)) => .ok (some .garbled)
  | .store (.put _ _) => .ok ()
  | .store (.delete _) => .ok ()
  | .store (.create _ _) => .ok false
  | .ask _ => true
  | .now => Nat.zero
  | .note _ => ()

/-- Every claim on the object among the listed checkpoints. -/
def listedClaims (object : ι) (content : Nat → Checkpoint ι) (keys : List WorkerKey) :
    List Claim :=
  keys.flatMap fun
    | .checkpoint w => (content w).claims object w
    | .other _ => []

/-- The claims among the checkpoints that could be read. -/
def readableClaims (object : ι) (content : Nat → Checkpoint ι) (reading : Nat → ReadOf)
    (keys : List WorkerKey) : List Claim :=
  keys.flatMap fun
    | .checkpoint w => if reading w = .whole then (content w).claims object w else []
    | .other _ => []

theorem readableClaims_subset (object : ι) (content : Nat → Checkpoint ι)
    (reading : Nat → ReadOf) (keys : List WorkerKey) :
    readableClaims object content reading keys ⊆ listedClaims object content keys := by
  intro c hc
  obtain ⟨key, hkey, hc⟩ := List.mem_flatMap.mp hc
  refine List.mem_flatMap.mpr ⟨key, hkey, ?_⟩
  cases key with
  | checkpoint w =>
    simp only at hc ⊢
    split_ifs at hc
    · exact hc
    · cases hc
  | other n => exact hc

theorem answer_claimScan (object : ι) (content : Nat → Checkpoint ι) (reading : Nat → ReadOf)
    (listing : Except Error (List WorkerKey)) (keys : List WorkerKey) (best : Option Claim) :
    (claimScan object keys best : Task WorkerKey (WorkerBlob ι) N Claim).answer
        (scanReplies content reading listing) =
      ((readableClaims object content reading keys).foldl Claim.consider best).getD .unclaimed := by
  induction keys generalizing best with
  | nil => rfl
  | cons key keys ih =>
    cases key with
    | other n => exact ih best
    | checkpoint w =>
      rw [claimScan, Prog.answer_bind]
      have hreply : (Store.get (WorkerKey.checkpoint w) :
          Try WorkerKey (WorkerBlob ι) N _).answer (scanReplies content reading listing) =
          match reading w with
          | .whole => .ok (some (.checkpoint (content w)))
          | .failed => .error .unavailable
          | .missing => .ok none
          | .garbled => .ok (some .garbled) := rfl
      rw [hreply]
      cases hr : reading w <;> simp [readableClaims, hr, ih]

/-- A scan answers the foremost readable claim. -/
theorem answer_durableClaim (object : ι) (content : Nat → Checkpoint ι) (reading : Nat → ReadOf)
    (keys : List WorkerKey) :
    Foremost (readableClaims object content reading keys)
        ((durableClaim object : Task WorkerKey (WorkerBlob ι) N Claim).answer
          (scanReplies content reading (.ok keys))) ∨
      readableClaims object content reading keys = [] ∧
        (durableClaim object : Task WorkerKey (WorkerBlob ι) N Claim).answer
          (scanReplies content reading (.ok keys)) = .unclaimed := by
  have hanswer : (durableClaim object : Task WorkerKey (WorkerBlob ι) N Claim).answer
      (scanReplies content reading (.ok keys)) =
      ((readableClaims object content reading keys).foldl Claim.consider none).getD .unclaimed :=
    answer_claimScan object content reading (.ok keys) keys none
  rw [hanswer]
  obtain ⟨hsome, hnone⟩ := foremost_consider (readableClaims object content reading keys) [] none
    nofun (fun _ => rfl)
  cases hbest : (readableClaims object content reading keys).foldl Claim.consider none with
  | some b => exact .inl (by simpa using hsome b hbest)
  | none => exact .inr ⟨by simpa using hnone hbest, rfl⟩

/-- The highest-ranked of all the claims: unclaimed only if there are none. -/
def Highest (cs : List Claim) (c : Claim) : Prop :=
  (cs = [] ∧ c = .unclaimed) ∨ (c ∈ cs ∧ ∀ x ∈ cs, x.rank ≤ c.rank)

/-- The answer is the highest-ranked claim over all the listed checkpoints, or it blocks. -/
def FailsClosed (object : ι) (content : Nat → Checkpoint ι) :
    Except Error (List WorkerKey) → Claim → Prop
  | .ok keys, answer => answer = .blocked ∨ Highest (listedClaims object content keys) answer
  | .error _, answer => answer = .blocked

/-- Each claim that cannot be read is outranked or equalled by one that can, or the foremost claim
that can be read is the blocking one itself. -/
def ReadsEnough (object : ι) (content : Nat → Checkpoint ι) (reading : Nat → ReadOf) :
    Except Error (List WorkerKey) → Prop
  | .ok keys =>
    (∀ c ∈ listedClaims object content keys,
      ∃ r ∈ readableClaims object content reading keys, c.rank ≤ r.rank) ∨
    Foremost (readableClaims object content reading keys) .blocked
  | .error _ => True

theorem unclaimed_notMem_listedClaims (object : ι) (content : Nat → Checkpoint ι)
    (keys : List WorkerKey) : .unclaimed ∉ listedClaims object content keys := by
  intro h
  obtain ⟨key, _, hc⟩ := List.mem_flatMap.mp h
  cases key with
  | checkpoint w => simp [Checkpoint.claims] at hc
  | other n => cases hc

/-- The foremost readable claim is the highest of all exactly when every claim has a readable one
at least as high. -/
theorem highest_iff {listed readable : List Claim} {answer : Claim} (hsub : readable ⊆ listed)
    (hreal : .unclaimed ∉ listed)
    (hanswer : Foremost readable answer ∨ readable = [] ∧ answer = .unclaimed) :
    answer = .blocked ∨ Highest listed answer ↔
      (∀ c ∈ listed, ∃ r ∈ readable, c.rank ≤ r.rank) ∨ Foremost readable .blocked := by
  rcases hanswer with hbest | ⟨rfl, rfl⟩
  · constructor
    · rintro (rfl | ⟨hempty, _⟩ | ⟨_, hall⟩)
      · exact .inr hbest
      · exact .inl (by simp [hempty])
      · exact .inl fun c hc => ⟨answer, hbest.mem, hall c hc⟩
    · rintro (henough | hblocked)
      · refine .inr (.inr ⟨hsub hbest.mem, fun x hx => ?_⟩)
        obtain ⟨r, hr, hle⟩ := henough x hx
        exact hle.trans (hbest.rank_le hr)
      · exact .inl (hbest.unique hblocked)
  · constructor
    · rintro (hblocked | ⟨hempty, _⟩ | ⟨hmem, _⟩)
      · cases hblocked
      · exact .inl (by simp [hempty])
      · exact absurd hmem hreal
    · rintro (henough | hblocked)
      · refine .inr (.inl ⟨List.eq_nil_iff_forall_not_mem.mpr fun c hc => ?_, rfl⟩)
        obtain ⟨r, hr, _⟩ := henough c hc
        cases hr
      · cases hblocked.mem

/-- A scan fails closed exactly when it reads enough. -/
theorem durableClaim_failsClosed_iff (object : ι) (content : Nat → Checkpoint ι)
    (reading : Nat → ReadOf) (listing : Except Error (List WorkerKey)) :
    FailsClosed object content listing
        ((durableClaim object : Task WorkerKey (WorkerBlob ι) N Claim).answer
          (scanReplies content reading listing)) ↔
      ReadsEnough object content reading listing := by
  cases listing with
  | error e => exact ⟨fun _ => trivial, fun _ => rfl⟩
  | ok keys =>
    exact highest_iff (readableClaims_subset object content reading keys)
      (unclaimed_notMem_listedClaims object content keys)
      (answer_durableClaim object content reading keys)

/-- Worker 0 owns the object at generation 1. -/
def ownedByZero (w : Nat) : Checkpoint Nat :=
  ⟨fun object => if w = 0 ∧ object = 7 then some 1 else none, fun _ => none⟩

/-- The one checkpoint that claims the object cannot be read, and the scan says unclaimed. -/
theorem unread_claim_answers_unclaimed :
    ¬ FailsClosed 7 ownedByZero (.ok [.checkpoint 0])
      ((durableClaim 7 : Task WorkerKey (WorkerBlob Nat) Unit Claim).answer
        (scanReplies ownedByZero (fun _ => .failed) (.ok [.checkpoint 0]))) := by
  rintro (hblocked | ⟨hempty, _⟩ | ⟨hmem, _⟩)
  · cases hblocked
  · cases hempty
  · exact absurd hmem (by decide)

end Fafo
