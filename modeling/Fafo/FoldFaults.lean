import Fafo.AppendOnly
import Fafo.Quiescent

/-! Reads of the log on a store that may fail: when a fold is complete or an error, and when an
outcome that could not be read passes for one that is not there. -/
namespace Fafo

open Interleave

variable {ι τ β δ : Type} [LinearOrder ι] [DecidableEq τ]

variable (M : Images β δ) (w : LogWorld ι τ β δ) (id : ι) (env : Nat → Env)

/-- The seq of the maximal contiguous committed prefix. -/
def fullSeq : Nat := baseSeq w id + (maximalRun w id (baseSeq w id)).length

/-- `fold_committed` fails, or returns the whole committed prefix with its image. -/
def FoldComplete : Prop :=
  ∀ img seq, (ends env (foldCommitted M id) 0 w).answer = .ok (img, seq) →
    seq = fullSeq w id ∧ fold M (baseImage M w id) (maximalRun w id (baseSeq w id)) = .ok img

/-- `committed_seq` fails, or returns the seq of the whole committed prefix. -/
def SeqComplete : Prop :=
  ∀ seq, (ends env (committedSeq M id) 0 w).answer = .ok seq → seq = fullSeq w id

variable {M w id env}

theorem fold_complete_of_whole (h : ∀ j, ¬ FalseGap w id env j) : FoldComplete M w id env := by
  intro img seq hans
  have hpass := pass_whole M w id h
  cases hr : (ends env (committedPass M id) 0 w).answer with
  | error e =>
    rw [foldCommitted_error hr] at hans
    cases hans
  | ok r =>
    obtain rfl := hpass.1 r hr
    rw [foldCommitted_answer hr] at hans
    cases hf : fold M (baseImage M w id) (maximalRun w id (baseSeq w id)) with
    | error e => simp [hf, Except.map] at hans
    | ok img' =>
      simp only [hf, Except.map, Except.ok.injEq, Prod.mk.injEq] at hans
      obtain ⟨rfl, rfl⟩ := hans
      exact ⟨rfl, rfl⟩

theorem seq_complete_of_whole (h : ∀ j, ¬ FalseGap w id env j) : SeqComplete M w id env := by
  intro seq hans
  have hpass := pass_whole M w id h
  cases hr : (ends env (committedPass M id) 0 w).answer with
  | error e =>
    rw [committedSeq_error hr] at hans
    cases hans
  | ok r =>
    obtain rfl := hpass.1 r hr
    rw [committedSeq_answer hr] at hans
    exact (Except.ok.inj hans).symm

/-- The prefix is cut short exactly at the false gap; a fold shows it if what comes before folds. -/
theorem folds_complete_iff (M : Images β δ) (w : LogWorld ι τ β δ) (id : ι) (env : Nat → Env) :
    (FoldComplete M w id env ↔ ∀ j, FalseGap w id env j → ∀ img,
      fold M (baseImage M w id) ((maximalRun w id (baseSeq w id)).take j) ≠ .ok img) ∧
    (SeqComplete M w id env ↔ ∀ j, ¬ FalseGap w id env j) := by
  refine ⟨⟨?_, ?_⟩, ⟨?_, seq_complete_of_whole⟩⟩
  · intro hcomplete j hgap img hfold
    have hans := foldCommitted_answer (hgap.pass M)
    rw [hfold] at hans
    obtain ⟨hseq, _⟩ := hcomplete img _ hans
    have hwithin := hgap.within
    unfold fullSeq at hseq
    omega
  · intro hfolds
    by_cases hgap : ∃ j, FalseGap w id env j
    · obtain ⟨j, hgap⟩ := hgap
      intro img seq hans
      rw [foldCommitted_answer (hgap.pass M)] at hans
      cases hf : fold M (baseImage M w id) ((maximalRun w id (baseSeq w id)).take j) with
      | error e => simp [hf, Except.map] at hans
      | ok img' => exact absurd hf (hfolds j hgap img')
    · exact fold_complete_of_whole fun j hj => hgap ⟨j, hj⟩
  · intro hcomplete j hgap
    have hseq := hcomplete _ (committedSeq_answer (hgap.pass M))
    have hwithin := hgap.within
    unfold fullSeq at hseq
    omega

/-- Object 0 has one entry, and its transaction is committed. -/
def oneEntry : LogWorld Nat Nat Nat Nat :=
  { blobs := (AList.insert (.log 0 1) (.entry ⟨0, 0, .delta 1⟩) ∅).insert (.outcome 0)
      (.verdict true) }

/-- Only operation number `n` fails. -/
def failsAt (n k : Nat) : Env := { fault := if k = n then .failed else .none }

/-- The list of bases, the list of the log and the get of entry 1 work, and the get of its outcome
fails: both calls report an empty log. -/
theorem unread_outcome_shortens :
    ¬ FoldComplete counterYard.images oneEntry 0 (failsAt 3) ∧
      ¬ SeqComplete counterYard.images oneEntry 0 (failsAt 3) := by
  have hfull : fullSeq oneEntry 0 = 1 := by decide
  refine ⟨fun h => ?_, fun h => ?_⟩
  · have hseq := (h 0 0 (by decide)).1
    omega
  · have hseq := h 0 (by decide)
    omega

end Fafo
