import Fafo.AppendOnly
import Fafo.Quiescent

/-! Compaction of a store at rest: publishing bases changes no fold. -/
namespace Fafo

open Interleave

variable {ι τ β δ : Type} [LinearOrder ι] [DecidableEq τ]

/-- Every operation works. -/
def calm (_ : Nat) : Env := {}

theorem works_calm (n : Nat) : Works calm n := rfl

/-- The payload decodes, whatever image it is applied to. -/
def Decodes (M : Images β δ) : LogPayload β δ → Prop
  | .snapshot _ => True
  | .delta d => ∀ img, (M.apply img d).isSome

/-- Every base is the fold of the committed run up to its seq. -/
def BasesFold (M : Images β δ) (w : LogWorld ι τ β δ) (id : ι) : Prop :=
  ∀ n b, w.get (.base id n) = some b → ImageOf M w id (imageBytes M b) n

/-- The store after a sequence of compactions, each of some object with some `keep`. -/
def compacted (M : Images β δ) (w : LogWorld ι τ β δ) (calls : List (ι × Nat)) :
    LogWorld ι τ β δ :=
  calls.foldl (fun w call => (ends calm (compact M call.1 call.2) 0 w).state) w

omit [LinearOrder ι] [DecidableEq τ] in
theorem fold_decodes (M : Images β δ) (ps : List (LogPayload β δ)) (base : β)
    (h : ∀ p ∈ ps, Decodes M p) : ∃ img, fold M base ps = .ok img := by
  induction ps generalizing base with
  | nil => exact ⟨base, rfl⟩
  | cons p ps ih =>
    obtain ⟨hp, hps⟩ := List.forall_mem_cons.mp h
    cases p with
    | snapshot b => exact ih b hps
    | delta d =>
      obtain ⟨b, hb⟩ := Option.isSome_iff_exists.mp (hp base)
      obtain ⟨img, himg⟩ := ih b hps
      exact ⟨img, by simpa only [fold, hb] using himg⟩

section Fold

variable {M : Images β δ} {w : LogWorld ι τ β δ} {id : ι}

/-- The maximal run from the start goes through every committed run. -/
theorem CommittedRun.maximalRun {ps : List (LogPayload β δ)} (h : CommittedRun w id ps) :
    maximalRun w id 0 = ps ++ Fafo.maximalRun w id ps.length := by
  apply IsMaximalRun.eq
  intro j hj
  rw [Nat.zero_add]
  by_cases hlt : j < ps.length
  · rw [List.getElem?_append_left hlt]
    have hp := List.getElem?_eq_getElem hlt
    rw [hp, committedAt_eq_some]
    exact h j _ hp
  · rw [List.getElem?_append_right (by omega)]
    rw [List.length_append] at hj
    have hspec := maximalRun_spec w id ps.length (j - ps.length) (by omega)
    rwa [show ps.length + (j - ps.length) + 1 = j + 1 by omega] at hspec

/-- The base is the fold of the run below it. -/
theorem base_folds (h : BasesFold M w id) : ImageOf M w id (baseImage M w id) (baseSeq w id) := by
  unfold baseImage baseSeq
  cases htop : topBase w id with
  | none => exact ⟨[], rfl, by simp [CommittedRun], rfl⟩
  | some seq =>
    have hmem := List.max?_mem htop
    simp only [List.mem_filterMap, mem_list_iff, parseBaseSeq_eq_some] at hmem
    obtain ⟨_, ⟨hsome, _⟩, rfl⟩ := hmem
    obtain ⟨b, hb⟩ := Option.isSome_iff_exists.mp hsome
    simpa [hb] using h seq b hb

theorem pass_calm (M : Images β δ) (w : LogWorld ι τ β δ) (id : ι) :
    (ends calm (committedPass M id) 0 w).answer =
      .ok (some (baseImage M w id, baseSeq w id + (maximalRun w id (baseSeq w id)).length,
        maximalRun w id (baseSeq w id))) :=
  (pass_whole M w id fun _ h => h.slips.2 (works_calm _)).2 works_calm

/-- A fold at rest is the fold of the maximal committed run from the empty image. -/
theorem foldCommitted_calm (h : BasesFold M w id) :
    (ends calm (foldCommitted M id) 0 w).answer =
        (fold M M.empty (maximalRun w id 0)).map (fun img => (img, (maximalRun w id 0).length)) ∧
      (ends calm (committedSeq M id) 0 w).answer = .ok (maximalRun w id 0).length := by
  obtain ⟨ps, hlen, hrun, hfold⟩ := base_folds h
  rw [foldCommitted_answer (pass_calm M w id), committedSeq_answer (pass_calm M w id),
    hrun.maximalRun, fold_append, hfold, List.length_append, hlen]
  exact ⟨rfl, rfl⟩

end Fold

section Compact

variable {M : Images β δ} {w : LogWorld ι τ β δ}

/-- A compaction leaves the store as it is, or publishes a fold as a base. -/
theorem compact_state (M : Images β δ) (w : LogWorld ι τ β δ) (id : ι) (keep : Nat) :
    (ends calm (compact M id keep) 0 w).state = w ∨
      ∃ img seq, (ends calm (foldCommitted M id) 0 w).answer = .ok (img, seq) ∧
        (ends calm (compact M id keep) 0 w).state =
          w.effect (.create (.base id seq) (.image img)) := by
  have hread : (ends calm (foldCommitted M id) 0 w).state = w :=
    ends_state (onlyReads_foldCommitted M id) 0 w
  cases hr : ends calm (foldCommitted M id) 0 w with
  | mk answer next state =>
  rw [hr] at hread
  obtain rfl : state = w := hread
  cases answer with
  | error e =>
    left
    rw [compact, ends, Prog.solo_attempt_of_error node calm hr]
  | ok x =>
    obtain ⟨img, seq⟩ := x
    have hbase : ends calm (readBase M id) next state = _ :=
      ends_readBase M state id fun i _ => works_calm _
    rw [compact, ends, Prog.solo_attempt_of_eq node calm hr]
    dsimp only
    rw [Prog.solo_attempt_of_eq node calm hbase]
    dsimp only
    split
    · exact .inl rfl
    · exact .inr ⟨img, seq, rfl, rfl⟩

/-- The same log, and every base of `id` is the fold of its run. -/
structure SameFolds (M : Images β δ) (id : ι) (w w' : LogWorld ι τ β δ) : Prop where
  runs : ∀ seq, committedAt w' id seq = committedAt w id seq
  bases : BasesFold M w' id

theorem committedAt_base (w : LogWorld ι τ β δ) (i : ι) (n : Nat) (b : Blob τ β δ) (id : ι)
    (seq : Nat) : committedAt (w.effect (.create (.base i n) b)) id seq = committedAt w id seq := by
  simp [committedAt, entryAt, verdict, World.get_create]

theorem maximalRun_congr {w w' : LogWorld ι τ β δ} {id : ι} {seq : Nat}
    (h : ∀ s, committedAt w' id s = committedAt w id s) :
    maximalRun w' id seq = maximalRun w id seq := by
  apply IsMaximalRun.eq
  intro j hj
  rw [h]
  exact maximalRun_spec w id seq j hj

theorem ImageOf.base {id i : ι} {img : β} {n m : Nat} {b : Blob τ β δ} (h : ImageOf M w id img n) :
    ImageOf M (w.effect (.create (.base i m) b)) id img n := by
  obtain ⟨ps, hlen, hrun, hfold⟩ := h
  refine ⟨ps, hlen, fun j p hj => ?_, hfold⟩
  rw [← committedAt_eq_some, committedAt_base, committedAt_eq_some]
  exact hrun j p hj

/-- What a fold returned is the image of the run up to its seq. -/
theorem imageOf_fold {id : ι} (h : BasesFold M w id) {img : β} {seq : Nat}
    (hans : (ends calm (foldCommitted M id) 0 w).answer = .ok (img, seq)) :
    ImageOf M w id img seq := by
  rw [(foldCommitted_calm h).1] at hans
  cases hf : fold M M.empty (maximalRun w id 0) with
  | error e => simp [hf, Except.map] at hans
  | ok img' =>
    simp only [hf, Except.map, Except.ok.injEq, Prod.mk.injEq] at hans
    obtain ⟨rfl, rfl⟩ := hans
    refine ⟨_, rfl, fun j p hj => ?_, hf⟩
    obtain ⟨hlt, _⟩ := List.getElem?_eq_some_iff.mp hj
    have hspec := maximalRun_spec w id 0 j (by omega)
    rw [Nat.zero_add, hj] at hspec
    exact committedAt_eq_some.mp hspec

/-- A compaction of any object keeps the log of `id`, and its bases folds of it. -/
theorem compact_step {id : ι} (h : BasesFold M w id) (call : ι × Nat) :
    SameFolds M id w (ends calm (compact M call.1 call.2) 0 w).state := by
  rcases compact_state M w call.1 call.2 with hs | ⟨img, seq, hans, hs⟩
  · rw [hs]
    exact ⟨fun _ => rfl, h⟩
  · rw [hs]
    refine ⟨committedAt_base w call.1 seq _ id, fun n b hb => ?_⟩
    rw [World.get_create] at hb
    split at hb
    · next hkey =>
      cases hkey.1
      cases hb
      exact (imageOf_fold h hans).base
    · exact (h n b hb).base

theorem compacted_run {id : ι} (h : BasesFold M w id) (calls : List (ι × Nat)) :
    SameFolds M id w (compacted M w calls) := by
  induction calls generalizing w with
  | nil => exact ⟨fun _ => rfl, h⟩
  | cons call calls ih =>
    have hstep := compact_step h call
    obtain ⟨hruns, hbases⟩ := ih hstep.bases
    exact ⟨fun seq => (hruns seq).trans (hstep.runs seq), hbases⟩

/-- However a store at rest is compacted, a fold returns what the maximal committed run folds to
from the empty image, and `committed_seq` its length. -/
theorem compaction_invisible (M : Images β δ) (w : LogWorld ι τ β δ) (id : ι)
    (hbases : BasesFold M w id)
    (hdecodes : ∀ seq p, committedAt w id seq = some p → Decodes M p) :
    ∃ img, fold M M.empty (maximalRun w id 0) = .ok img ∧ ∀ calls,
      (ends calm (foldCommitted M id) 0 (compacted M w calls)).answer =
          .ok (img, (maximalRun w id 0).length) ∧
        (ends calm (committedSeq M id) 0 (compacted M w calls)).answer =
          .ok (maximalRun w id 0).length := by
  obtain ⟨img, himg⟩ := fold_decodes M (maximalRun w id 0) M.empty (by
    intro p hp
    obtain ⟨j, hj, rfl⟩ := List.getElem_of_mem hp
    have hspec := maximalRun_spec w id 0 j (by omega)
    rw [List.getElem?_eq_getElem hj] at hspec
    exact hdecodes _ _ hspec)
  refine ⟨img, himg, fun calls => ?_⟩
  obtain ⟨hruns, hfolds⟩ := compacted_run hbases calls
  obtain ⟨hfold, hseq⟩ := foldCommitted_calm hfolds
  rw [hfold, hseq, maximalRun_congr hruns, himg]
  exact ⟨rfl, rfl⟩

end Compact

/-- A snapshot with a base of its own, a delta on it, and a third entry that is pending. -/
def shortLog : LogWorld Nat Nat Nat Nat :=
  { blobs := ((((AList.insert (.log 0 1) (.entry ⟨0, 0, .snapshot 5⟩) ∅).insert (.log 0 2)
      (.entry ⟨1, 0, .delta 1⟩)).insert (.log 0 3) (.entry ⟨2, 0, .delta 1⟩)).insert
      (.outcome 0) (.verdict true)).insert (.outcome 1) (.verdict true) }

def shortLogBased : LogWorld Nat Nat Nat Nat :=
  shortLog.effect (.put (.base 0 1) (.image 5))

theorem basesFold_shortLog : BasesFold counterYard.images shortLogBased 0 := by
  intro n b hb
  rw [shortLogBased, World.get_put] at hb
  split at hb
  · next hkey =>
    cases hkey
    cases hb
    refine ⟨[.snapshot 5], rfl, fun j p hj => ?_, rfl⟩
    obtain ⟨hlt, rfl⟩ := List.getElem?_eq_some_iff.mp hj
    obtain rfl : j = 0 := by simpa using hlt
    exact ⟨⟨0, 0, .snapshot 5⟩, rfl, rfl, rfl⟩
  · cases hb

theorem compaction_invisible_shortLog :
    ∃ img, fold counterYard.images 0 (maximalRun shortLogBased 0 0) = .ok img ∧ ∀ calls,
      (ends calm (foldCommitted counterYard.images 0) 0
          (compacted counterYard.images shortLogBased calls)).answer =
          .ok (img, (maximalRun shortLogBased 0 0).length) ∧
        (ends calm (committedSeq counterYard.images 0) 0
          (compacted counterYard.images shortLogBased calls)).answer =
          .ok (maximalRun shortLogBased 0 0).length :=
  compaction_invisible counterYard.images shortLogBased 0 basesFold_shortLog fun _ p _ => by
    cases p with
    | snapshot b => trivial
    | delta d => exact fun _ => rfl

end Fafo
