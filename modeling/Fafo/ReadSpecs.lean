import Fafo.History

/-! What the read paths of the log achieve whatever others do to it, within a stable relation. -/
namespace Fafo

open Interleave

variable {ι τ β δ α γ : Type} [LinearOrder ι] [DecidableEq τ]

omit [LinearOrder ι] [DecidableEq τ] in
theorem fold_append (M : Images β δ) (ps qs : List (LogPayload β δ)) (base : β) :
    fold M base (ps ++ qs) = (fold M base ps).bind fun img => fold M img qs := by
  induction ps generalizing base with
  | nil => rfl
  | cons p ps ih =>
    cases p with
    | snapshot b => exact ih b
    | delta d =>
      simp only [List.cons_append, fold]
      cases M.apply base d with
      | none => rfl
      | some b => exact ih b

section

omit [DecidableEq τ]

theorem parseLogSeq_eq_some {id : ι} {k : Key ι τ} {seq : Nat} :
    parseLogSeq id k = some seq ↔ k = .log id seq := by
  cases k <;> simp [parseLogSeq]

theorem parseBaseSeq_eq_some {id : ι} {k : Key ι τ} {seq : Nat} :
    parseBaseSeq id k = some seq ↔ k = .base id seq := by
  cases k <;> simp [parseBaseSeq]

theorem mem_sortedSeqs {id : ι} {keys : List (Key ι τ)} {seq : Nat} :
    seq ∈ sortedSeqs id keys ↔ .log id seq ∈ keys := by
  simp [sortedSeqs, parseLogSeq_eq_some]

/-- No key is listed twice, so the sorted seqs strictly increase. -/
theorem sortedSeqs_pairwise (id : ι) {keys : List (Key ι τ)} (h : keys.Nodup) :
    (sortedSeqs id keys).Pairwise (· < ·) := by
  have hnodup : (sortedSeqs id keys).Nodup := by
    refine (List.perm_insertionSort _ _).nodup_iff.mpr (h.filterMap ?_)
    intro k k' seq hk hk'
    rw [Option.mem_def, parseLogSeq_eq_some] at hk hk'
    rw [hk, hk']
  have hsorted : (sortedSeqs id keys).Pairwise (· ≤ ·) := List.pairwise_insertionSort _ _
  exact (hsorted.and hnodup).imp fun h => Nat.lt_of_le_of_ne h.1 h.2

end

theorem CommittedRun.snoc {w : LogWorld ι τ β δ} {id : ι} {ps : List (LogPayload β δ)}
    {e : LogEntry τ β δ} (h : CommittedRun w id ps) (he : entryAt w id (ps.length + 1) = some e)
    (hv : verdict w e.txn = some true) : CommittedRun w id (ps ++ [e.payload]) := by
  intro j p hj
  rcases Nat.lt_or_ge j ps.length with hlt | hge
  · rw [List.getElem?_append_left hlt] at hj
    exact h j p hj
  · rw [List.getElem?_append_right hge] at hj
    obtain ⟨hj0, rfl⟩ := List.getElem?_eq_some_iff.mp hj
    have hj' : j = ps.length := by
      simp only [List.length_singleton] at hj0
      omega
    subst hj'
    exact ⟨e, he, hv, by simp⟩

/-- The payloads collected so far stand on a base image of the committed prefix below them. -/
def RunAbove (M : Images β δ) (w : LogWorld ι τ β δ) (id : ι) (base : β) (baseSeq : Nat)
    (payloads : List (LogPayload β δ)) : Prop :=
  ∃ ps, ps.length = baseSeq ∧ fold M M.empty ps = .ok base ∧ CommittedRun w id (ps ++ payloads)

theorem RunAbove.committedTo {w : LogWorld ι τ β δ} {id : ι} {base : β} {baseSeq : Nat}
    {payloads : List (LogPayload β δ)} (h : RunAbove M w id base baseSeq payloads) :
    CommittedTo w id (baseSeq + payloads.length) := by
  obtain ⟨ps, rfl, _, hrun⟩ := h
  exact ⟨_, by simp, hrun⟩

theorem RunAbove.imageOf {w : LogWorld ι τ β δ} {id : ι} {base img : β} {baseSeq : Nat}
    {payloads : List (LogPayload β δ)} (h : RunAbove M w id base baseSeq payloads)
    (hf : fold M base payloads = .ok img) : ImageOf M w id img (baseSeq + payloads.length) := by
  obtain ⟨ps, rfl, hfold, hrun⟩ := h
  refine ⟨ps ++ payloads, by simp, hrun, ?_⟩
  rw [fold_append, hfold]
  exact hf

/-- The listed seqs still to visit: increasing, either below the base or ahead of the run, and
complete up to `bound`. -/
structure Ahead (baseSeq seq bound : Nat) (keys : List Nat) : Prop where
  sorted : keys.Pairwise (· < ·)
  ahead : ∀ k ∈ keys, k ≤ baseSeq ∨ seq < k
  listed : ∀ s, seq < s → s ≤ bound → s ∈ keys

section

omit [LinearOrder ι] [DecidableEq τ]

theorem Ahead.skip {baseSeq seq bound k : Nat} {keys : List Nat}
    (h : Ahead baseSeq seq bound (k :: keys)) (hseq : baseSeq ≤ seq) (hk : k ≤ baseSeq) :
    Ahead baseSeq seq bound keys where
  sorted := (List.pairwise_cons.mp h.sorted).2
  ahead j hj := h.ahead j (List.mem_cons_of_mem _ hj)
  listed s hs hb := by
    rcases List.mem_cons.mp (h.listed s hs hb) with rfl | hmem
    · omega
    · exact hmem

theorem Ahead.next {baseSeq seq bound : Nat} {keys : List Nat}
    (h : Ahead baseSeq seq bound ((seq + 1) :: keys)) : Ahead baseSeq (seq + 1) bound keys where
  sorted := (List.pairwise_cons.mp h.sorted).2
  ahead j hj := .inr ((List.pairwise_cons.mp h.sorted).1 j hj)
  listed s hs hb := by
    rcases List.mem_cons.mp (h.listed s (by omega) hb) with rfl | hmem
    · omega
    · exact hmem

/-- A gap in the listing lies beyond everything that was certain to be listed. -/
theorem Ahead.gap {baseSeq seq bound k : Nat} {keys : List Nat}
    (h : Ahead baseSeq seq bound (k :: keys)) (hk : ¬ k ≤ baseSeq) (hgap : k ≠ seq + 1) :
    bound ≤ seq := by
  by_contra hlt
  have hmem := h.listed (seq + 1) (by omega) (by omega)
  have hahead := h.ahead k (List.mem_cons_self ..)
  rcases List.mem_cons.mp hmem with heq | hmem
  · omega
  · have hless := (List.pairwise_cons.mp h.sorted).1 _ hmem
    omega

end

/-- What readers of `id` need of the others: `R` keeps an invariant by which bases are folds of
committed runs, decisions and bases stay, and an entry stays until its transaction can no longer
commit. -/
structure Stable (M : Images β δ) (id : ι) (I : LogWorld ι τ β δ → Prop)
    (R : LogWorld ι τ β δ → LogWorld ι τ β δ → Prop) : Prop where
  kept : ∀ {w w'}, R w w' → I w → I w'
  folds : ∀ {w}, I w → ∀ n b, w.get (.base id n) = some b → ImageOf M w id (imageBytes M b) n
  decided : ∀ {w w'}, R w w' → ∀ txn v, verdict w txn = some v → verdict w' txn = some v
  based : ∀ {w w'}, R w w' → ∀ n b, w.get (.base id n) = some b → w'.get (.base id n) = some b
  held : ∀ {w w'}, R w w' → I w → ∀ seq e, entryAt w id seq = some e →
    verdict w' e.txn = some true → entryAt w' id seq = some e

section Stable

variable {M : Images β δ} {id : ι} {I : LogWorld ι τ β δ → Prop}
  {R : LogWorld ι τ β δ → LogWorld ι τ β δ → Prop} {w w' : LogWorld ι τ β δ}

theorem Stable.committedRun (h : Stable M id I R) (hs : I w) (hw : R w w')
    {ps : List (LogPayload β δ)} (hp : CommittedRun w id ps) : CommittedRun w' id ps := by
  intro j p hj
  obtain ⟨e, he, hv, rfl⟩ := hp j p hj
  have hv' := h.decided hw e.txn true hv
  exact ⟨e, h.held hw hs _ e he hv', hv', rfl⟩

theorem Stable.committedTo (h : Stable M id I R) (hs : I w) (hw : R w w') {n : Nat}
    (hp : CommittedTo w id n) : CommittedTo w' id n := by
  obtain ⟨ps, hn, hps⟩ := hp
  exact ⟨ps, hn, h.committedRun hs hw hps⟩

theorem Stable.imageOf (h : Stable M id I R) (hs : I w) (hw : R w w') {img : β} {n : Nat}
    (hp : ImageOf M w id img n) : ImageOf M w' id img n := by
  obtain ⟨ps, hn, hps, hf⟩ := hp
  exact ⟨ps, hn, h.committedRun hs hw hps, hf⟩

theorem Stable.runAbove (h : Stable M id I R) (hs : I w) (hw : R w w') {base : β} {baseSeq : Nat}
    {payloads : List (LogPayload β δ)} (hp : RunAbove M w id base baseSeq payloads) :
    RunAbove M w' id base baseSeq payloads := by
  obtain ⟨ps, hlen, hfold, hrun⟩ := hp
  exact ⟨ps, hlen, hfold, h.committedRun hs hw hrun⟩

end Stable

section Observe

variable (A : Env → Option (Event (nodeSig (Key ι τ) (Blob τ β δ) (Note ι τ β))) →
    NodeOp (Key ι τ) (Blob τ β δ) (Note ι τ β) → LogWorld ι τ β δ → Prop)
  (R : LogWorld ι τ β δ → LogWorld ι τ β δ → Prop)

/-- The program leaves the store alone, whatever `R` lets the others do between its operations. -/
abbrev Observes (Q : α → LogWorld ι τ β δ → Prop) (p : NotedTask ι τ β δ α)
    (w : LogWorld ι τ β δ) : Prop := Does reliable A R Eq Q p w

variable {A R} [IsTrans (LogWorld ι τ β δ) R] [Std.Refl R]

/-- An observer ends in a state the others can bring about from where it began. -/
theorem Observes.since {Q : α → LogWorld ι τ β δ → Prop} {p : NotedTask ι τ β δ α}
    {w : LogWorld ι τ β δ} (h : Observes A R Q p w) :
    Observes A R (fun a t => Q a t ∧ R w t) p w :=
  h.frame (fun _ _ hst hs => Trans.trans hs hst) (fun _ _ hst hs => hst ▸ hs) (Std.Refl.refl w)

omit [IsTrans (LogWorld ι τ β δ) R] [Std.Refl R] in
theorem observes_get {key : Key ι τ} {f : Option (Blob τ β δ) → NotedTry ι τ β δ α}
    {Q : Except Error α → LogWorld ι τ β δ → Prop} {w : LogWorld ι τ β δ}
    (h : ∀ t, R w t → Observes A R Q (f (t.get key)) t) :
    Observes A R Q ((Store.get key).attempt f) w :=
  Does.call fun t ht _ _ _ => ⟨rfl, h t ht⟩

omit [IsTrans (LogWorld ι τ β δ) R] [Std.Refl R] in
theorem observes_list {pre : Key ι τ → Bool} {f : List (Key ι τ) → NotedTry ι τ β δ α}
    {Q : Except Error α → LogWorld ι τ β δ → Prop} {w : LogWorld ι τ β δ}
    (h : ∀ t, R w t → Observes A R Q (f (t.blobs.keys.filter pre)) t) :
    Observes A R Q ((Store.list pre).attempt f) w :=
  Does.call fun t ht _ _ _ => ⟨rfl, h t ht⟩

variable {M : Images β δ} {id : ι} {I : LogWorld ι τ β δ → Prop} {w : LogWorld ι τ β δ}

omit [IsTrans (LogWorld ι τ β δ) R] [Std.Refl R] in
theorem observes_readBase (h : Stable M id I R) (hs : I w) :
    Observes A R (fun r t => ∀ x, r = .ok x → ImageOf M t id x.1 x.2) (readBase M id) w := by
  refine observes_list fun t ht => ?_
  have hst := h.kept ht hs
  split
  · next seq hmax =>
    have hmem := List.max?_mem hmax
    simp only [List.mem_filterMap, mem_list_iff, parseBaseSeq_eq_some] at hmem
    obtain ⟨_, ⟨hsome, _⟩, rfl⟩ := hmem
    obtain ⟨b, hb⟩ := Option.isSome_iff_exists.mp hsome
    refine observes_get fun t' ht' => Does.ret fun u hu x hx => ?_
    have hb' := h.based ht' seq b hb
    rw [hb'] at hx
    cases hx
    have hst' := h.kept ht' hst
    exact h.imageOf hst' hu (h.folds hst' seq b hb')
  · refine Does.ret fun u hu x hx => ?_
    cases hx
    exact ⟨[], rfl, by simp [CommittedRun], rfl⟩

omit [IsTrans (LogWorld ι τ β δ) R] [Std.Refl R] in
/-- What the outcome key says is, and stays, the verdict. -/
theorem observes_outcome
    (h : ∀ {w w' : LogWorld ι τ β δ}, R w w' → ∀ x v, verdict w x = some v → verdict w' x = some v)
    (txn : τ) (w : LogWorld ι τ β δ) :
    Observes A R (fun r t => ∃ v, r = .ok v ∧ (∀ b, v = some b → verdict t txn = some b) ∧
      ∀ b, verdict w txn = some b → v = some b) (outcome txn) w := by
  refine observes_get fun t ht => Does.ret fun u hu => ⟨verdict t txn, rfl, ?_, ?_⟩
  · exact fun b hb => h hu txn b hb
  · exact fun b hb => h ht txn b hb

omit [IsTrans (LogWorld ι τ β δ) R] in
theorem observes_committed
    (h : ∀ {w w' : LogWorld ι τ β δ}, R w w' → ∀ x v, verdict w x = some v → verdict w' x = some v)
    (txn : τ) (w : LogWorld ι τ β δ) :
    Observes A R (fun c t => (c = true → verdict t txn = some true) ∧
      (verdict w txn = some true → c = true)) (committed txn) w := by
  refine Does.bind ((observes_outcome h txn w).mono ?_)
  rintro r t ⟨v, rfl, hthen, hif⟩
  split
  · next hv =>
    cases hv
    exact Does.ret fun u hu => ⟨fun _ => h hu txn true (hthen true rfl), fun _ => rfl⟩
  · next hv =>
    refine Does.ret fun u hu => ⟨fun hc => absurd hc Bool.false_ne_true, fun hw => ?_⟩
    rw [hif true hw] at hv
    exact absurd rfl hv

/-- A walk that returns stayed on the committed run above its base, up to `bound` at least. -/
def Walked (M : Images β δ) (id : ι) (base : β) (baseSeq bound : Nat)
    (r : Except Error (Nat × List (LogPayload β δ))) (w : LogWorld ι τ β δ) : Prop :=
  ∀ x, r = .ok x → RunAbove M w id base baseSeq x.2 ∧ x.1 = baseSeq + x.2.length ∧ bound ≤ x.1

omit [IsTrans (LogWorld ι τ β δ) R] [Std.Refl R] in
theorem observes_stop (h : Stable M id I R) (hs : I w) {base : β} {baseSeq bound seq : Nat}
    {payloads : List (LogPayload β δ)} (hrun : RunAbove M w id base baseSeq payloads)
    (hseq : seq = baseSeq + payloads.length) (hle : bound ≤ seq) :
    Observes A R (Walked M id base baseSeq bound) (.ret (.ok (seq, payloads))) w := by
  refine Does.ret fun t ht x hx => ?_
  cases hx
  exact ⟨h.runAbove hs ht hrun, hseq, hle⟩

/-- The walk stays on the committed prefix, and covers what was committed when it began. -/
theorem observes_committedRun (h : Stable M id I R) (base : β) (baseSeq bound : Nat)
    (keys : List Nat) (seq : Nat) (payloads : List (LogPayload β δ)) (hs : I w)
    (hrun : RunAbove M w id base baseSeq payloads) (hseq : seq = baseSeq + payloads.length)
    (hkeys : Ahead baseSeq seq bound keys) (hbound : CommittedTo w id bound) :
    Observes A R (Walked M id base baseSeq bound) (committedRun id baseSeq keys seq payloads)
      w := by
  induction keys generalizing seq payloads w with
  | nil =>
    refine observes_stop h hs hrun hseq ?_
    by_contra hlt
    exact absurd (hkeys.listed (seq + 1) (by omega) (by omega)) (by simp)
  | cons k keys ih =>
    rw [committedRun]
    split_ifs with hk hgap
    · exact ih seq payloads hs hrun hseq (hkeys.skip (by omega) hk) hbound
    · exact observes_stop h hs hrun hseq (hkeys.gap hk hgap)
    · obtain rfl : k = seq + 1 := by simpa using hgap
      refine observes_get fun t ht => ?_
      have hst := h.kept ht hs
      have hcovered : seq + 1 ≤ bound →
          ∃ e, entryAt t id (seq + 1) = some e ∧ verdict t e.txn = some true :=
        (h.committedTo hs ht hbound).entry (by omega)
      split
      · next hnone =>
        refine observes_stop h hst (h.runAbove hs ht hrun) hseq ?_
        by_contra hlt
        obtain ⟨e, he, _⟩ := hcovered (by omega)
        rw [entryAt, hnone] at he
        cases he
      · next entry hentry =>
        refine Does.bind ((observes_committed h.decided entry.txn t).since.mono ?_)
        rintro c u ⟨⟨hthen, hif⟩, hu⟩
        have hwu : R w u := Trans.trans ht hu
        have hsu := h.kept hu hst
        split_ifs with hc
        · -- a committed entry is still where it was read
          have hentry' : entryAt u id (seq + 1) = some entry :=
            h.held hu hst _ entry hentry (hthen hc)
          have hrun' : RunAbove M u id base baseSeq (payloads ++ [entry.payload]) := by
            obtain ⟨ps, hlen, hfold, hps⟩ := h.runAbove hs hwu hrun
            refine ⟨ps, hlen, hfold, ?_⟩
            rw [← List.append_assoc]
            refine hps.snoc ?_ (hthen hc)
            rwa [List.length_append, hlen, ← hseq]
          refine ih (seq + 1) _ hsu hrun' ?_ hkeys.next (h.committedTo hs hwu hbound)
          simp [hseq, Nat.add_assoc]
        · refine observes_stop h hsu (h.runAbove hs hwu hrun) hseq ?_
          by_contra hlt
          obtain ⟨e, he, hv⟩ := hcovered (by omega)
          have heq : e = entry := by
            rw [entryAt, hentry] at he
            cases he
            rfl
          exact hc (hif (heq ▸ hv))

/-- One pass: the run stands on the base, and covers what was committed when it began. -/
theorem observes_committedPass (h : Stable M id I R) (bound : Nat) (hs : I w)
    (hbound : CommittedTo w id bound) :
    Observes A R (fun r t => ∀ base seq payloads, r = .ok (some (base, seq, payloads)) →
      ∃ baseSeq, RunAbove M t id base baseSeq payloads ∧ seq = baseSeq + payloads.length ∧
        bound ≤ seq) (committedPass M id) w := by
  refine Does.attempt ((observes_readBase h hs).since.mono ?_)
  rintro r t ⟨hbase, ht⟩
  refine ⟨?_, by simp⟩
  rintro ⟨base, baseSeq⟩ rfl
  have himg := hbase _ rfl
  have hst := h.kept ht hs
  refine observes_list fun u hu => ?_
  have hwu : R w u := Trans.trans ht hu
  have hsu := h.kept hu hst
  have hrun : RunAbove M u id base baseSeq [] := by
    obtain ⟨ps, hlen, hps, hfold⟩ := h.imageOf hst hu himg
    exact ⟨ps, hlen, hfold, by simpa using hps⟩
  have hkeys : Ahead baseSeq baseSeq bound
      (sortedSeqs id (u.blobs.keys.filter (logPrefix id))) := by
    refine ⟨sortedSeqs_pairwise id (u.blobs.keys_nodup.filter _), fun k _ => ?_, ?_⟩
    · omega
    · intro s hlt hle
      obtain ⟨e, he, _⟩ := (h.committedTo hs hwu hbound).entry (by omega) hle
      rw [mem_sortedSeqs, mem_list_iff]
      obtain ⟨b, hb, _⟩ := Option.bind_eq_some_iff.mp he
      exact ⟨by simp [hb], by simp [logPrefix, parseLogSeq]⟩
  refine Does.attempt ((observes_committedRun h base baseSeq bound _ baseSeq [] hsu hrun rfl hkeys
    (h.committedTo hs hwu hbound)).since.mono ?_)
  rintro r v ⟨hrunv, hv⟩
  refine ⟨?_, by simp⟩
  rintro ⟨seq, payloads⟩ rfl
  obtain ⟨hrun', hseq, hle⟩ := hrunv _ rfl
  have hsv := h.kept hv hsu
  refine Does.attempt ((observes_readBase h hsv).since.mono ?_)
  rintro r x ⟨_, hx⟩
  refine ⟨?_, by simp⟩
  rintro ⟨_, baseSeqNow⟩ rfl
  dsimp only
  split_ifs
  · exact Does.ret fun _ _ => by simp
  · refine Does.ret fun y hy base' seq' payloads' heq => ?_
    cases heq
    exact ⟨baseSeq, h.runAbove hsv (Trans.trans hx hy) hrun', hseq, hle⟩

/-- The highest committed seq is committed, and at least what was committed before. -/
theorem observes_committedSeq (h : Stable M id I R) (bound : Nat) (hs : I w)
    (hbound : CommittedTo w id bound) :
    Observes A R (fun r t => ∀ n, r = .ok n → CommittedTo t id n ∧ bound ≤ n)
      (committedSeq M id) w := by
  unfold committedSeq
  generalize 16 = tries
  induction tries generalizing w with
  | zero => exact Does.ret fun _ _ => by simp
  | succ tries ih =>
    refine Does.attempt ((observes_committedPass h bound hs hbound).since.mono ?_)
    rintro r t ⟨hpass, ht⟩
    have hst := h.kept ht hs
    refine ⟨?_, by simp⟩
    rintro found rfl
    cases found with
    | none => exact ih hst (h.committedTo hs ht hbound)
    | some found =>
      obtain ⟨base, seq, payloads⟩ := found
      obtain ⟨baseSeq, hrun, rfl, hle⟩ := hpass _ _ _ rfl
      refine Does.ret fun u hu n hn => ?_
      cases hn
      exact ⟨h.committedTo hst hu hrun.committedTo, hle⟩

/-- A fold is the image of a committed prefix, and covers what was committed when it began. -/
theorem observes_foldCommitted (h : Stable M id I R) (bound : Nat) (hs : I w)
    (hbound : CommittedTo w id bound) :
    Observes A R (fun r t => ∀ img n, r = .ok (img, n) → ImageOf M t id img n ∧ bound ≤ n)
      (foldCommitted M id) w := by
  unfold foldCommitted
  generalize 16 = tries
  induction tries generalizing w with
  | zero => exact Does.ret fun _ _ => by simp
  | succ tries ih =>
    refine Does.attempt ((observes_committedPass h bound hs hbound).since.mono ?_)
    rintro r t ⟨hpass, ht⟩
    have hst := h.kept ht hs
    refine ⟨?_, by simp⟩
    rintro found rfl
    cases found with
    | none => exact ih hst (h.committedTo hs ht hbound)
    | some found =>
      obtain ⟨base, seq, payloads⟩ := found
      obtain ⟨baseSeq, hrun, rfl, hle⟩ := hpass _ _ _ rfl
      refine Does.ret fun u hu img n hn => ?_
      cases hf : fold M base payloads with
      | error e => simp [hf, Except.map] at hn
      | ok img' =>
        simp only [hf, Except.map, Except.ok.injEq, Prod.mk.injEq] at hn
        obtain ⟨rfl, rfl⟩ := hn
        exact ⟨h.imageOf hst hu (hrun.imageOf hf), hle⟩

end Observe

end Fafo
