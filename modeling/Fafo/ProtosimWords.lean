import Fafo.Library.Runs
import Fafo.ProtosimSafety

/-! The simulated protocol with its balances in signed words: how long it is safe. -/
namespace Fafo.Protosim

open Words (Build addSigned)

variable {α τ : Type} [DecidableEq α] [DecidableEq τ] {build : Build}
variable {accounts : List α} {balance : α → Nat} {s : Store α τ} {L : Ledger α}

/-- No account was ever worth more than a signed word holds. -/
def Small (accounts : List α) (balance : α → Nat) (L : Ledger α) : Prop :=
  ∀ o ∈ accounts, ∀ n, L.valueAt (fun o => balance o) o n < 2 ^ 63

omit [DecidableEq α] in
theorem valueAt_succ (opening : α → Int) {o : α} {n : Nat} (hn : n < (L o).length) :
    L.valueAt opening o (n + 1) = L.valueAt opening o n + (L o)[n] := by
  rw [Ledger.valueAt, Ledger.valueAt, List.take_add_one, List.getElem?_eq_getElem hn,
    Option.toList_some, List.sum_append, List.sum_singleton, add_assoc]

/-- While the sums of an account are signed words, the loop adds them up. -/
theorem Books.readLoopWords (h : Books accounts balance s L) {o : α}
    (hsolvent : ∀ n, 0 ≤ L.valueAt (fun o => balance o) o n)
    (hsmall : ∀ n, L.valueAt (fun o => balance o) o n < 2 ^ 63) (fuel n : Nat)
    (hn : n ≤ (L o).length) (hfuel : (L o).length - n ≤ fuel) :
    Protosim.readLoopWords build s o fuel n (L.valueAt (fun o => balance o) o n) =
      some ((L o).length, L.value (fun o => balance o) o) := by
  induction fuel generalizing n with
  | zero =>
    obtain rfl : n = (L o).length := by omega
    rw [Protosim.readLoopWords, Ledger.valueAt_length o le_rfl]
  | succ fuel ih =>
    rw [Protosim.readLoopWords]
    rcases Nat.lt_or_ge n (L o).length with hlt | hge
    · rw [h.delta hlt]
      dsimp only
      have hnext := valueAt_succ (fun o => balance o) hlt
      rw [Words.addSigned_of_lt, Option.bind_some, ← hnext]
      · exact ih (n + 1) hlt (by omega)
      · rw [← hnext]
        exact hsolvent _
      · rw [← hnext]
        exact hsmall _
    · obtain rfl : n = (L o).length := by omega
      rw [h.delta_none, Ledger.valueAt_length o le_rfl]

theorem Books.readCommittedWords (h : Books accounts balance s L)
    (hsound : L.Sound accounts.toFinset (fun o => balance o)) (hsmall : Small accounts balance L)
    {o : α} (ho : o ∈ accounts) :
    Protosim.readCommittedWords build s o = some (Protosim.readCommitted s o) := by
  rw [h.readCommitted ho]
  unfold Protosim.readCommittedWords
  rw [h.base o ho]
  dsimp only
  have hzero : L.valueAt (fun o => (balance o : Int)) o 0 = balance o := by simp [Ledger.valueAt]
  rw [← hzero]
  apply h.readLoopWords (hsound.solvent o (List.mem_toFinset.mpr ho)) (hsmall o ho)
  · exact Nat.zero_le _
  · simpa using h.length_le o

/-- Where the last sum is none, the loop panics or comes out negative. -/
theorem Books.readLoopWords_over (h : Books accounts balance s L) {o : α} {k : Nat}
    (hk : (L o).length = k + 1) (hsolvent : ∀ n ≤ k, 0 ≤ L.valueAt (fun o => balance o) o n)
    (hsmall : ∀ n ≤ k, L.valueAt (fun o => balance o) o n < 2 ^ 63)
    (hover : 2 ^ 63 ≤ L.value (fun o => balance o) o)
    (hword : L.value (fun o => balance o) o < 2 ^ 64) (fuel n : Nat) (hn : n ≤ k)
    (hfuel : (L o).length - n ≤ fuel) {seq : Nat} {val : Int}
    (hread : Protosim.readLoopWords build s o fuel n (L.valueAt (fun o => balance o) o n) =
      some (seq, val)) : val < 0 := by
  induction fuel generalizing n with
  | zero => omega
  | succ fuel ih =>
    have hlt : n < (L o).length := by omega
    have hnext := valueAt_succ (fun o => balance o) hlt
    rw [Protosim.readLoopWords, h.delta hlt] at hread
    dsimp only at hread
    by_cases hlast : n = k
    · -- the last posting
      subst hlast
      rw [← hk, Ledger.valueAt_length o le_rfl] at hnext
      obtain ⟨sum, hsum, hread⟩ := Option.bind_eq_some_iff.mp hread
      have hneg : sum < 0 := Words.addSigned_of_ge (hnext ▸ hover) (hnext ▸ hword) hsum
      have hend : Protosim.readLoopWords build s o fuel (n + 1) sum = some (n + 1, sum) := by
        rw [← hk]
        cases fuel with
        | zero => rfl
        | succ fuel =>
          rw [Protosim.readLoopWords, h.delta_none]
      rw [hend] at hread
      cases hread
      exact hneg
    · rw [Words.addSigned_of_lt, Option.bind_some, ← hnext] at hread
      · exact ih (n + 1) (by omega) (by omega) hread
      · rw [← hnext]
        exact hsolvent _ (by omega)
      · rw [← hnext]
        exact hsmall _ (by omega)

theorem Books.readCommittedWords_over (h : Books accounts balance s L) {o : α} (ho : o ∈ accounts)
    {k : Nat} (hk : (L o).length = k + 1)
    (hsolvent : ∀ n ≤ k, 0 ≤ L.valueAt (fun o => balance o) o n)
    (hsmall : ∀ n ≤ k, L.valueAt (fun o => balance o) o n < 2 ^ 63)
    (hover : 2 ^ 63 ≤ L.value (fun o => balance o) o)
    (hword : L.value (fun o => balance o) o < 2 ^ 64) {read : Nat × Int}
    (hread : Protosim.readCommittedWords build s o = some read) : read.2 < 0 := by
  unfold Protosim.readCommittedWords at hread
  rw [h.base o ho] at hread
  have hzero : L.valueAt (fun o => (balance o : Int)) o 0 = balance o := by simp [Ledger.valueAt]
  dsimp only at hread
  rw [← hzero] at hread
  have hfuel : (L o).length - 0 ≤ s.keys.length := h.length_le o
  exact h.readLoopWords_over hk hsolvent hsmall hover hword _ 0 (Nat.zero_le _) hfuel hread

/-- What was posted takes the payee beyond the signed words: it had one, and so had the payer. -/
theorem Books.read_posted {payer payee : α} {amt : Int}
    (h : Books accounts balance s (L.post payer payee (-amt) amt))
    (hsound : L.Sound accounts.toFinset (fun o => balance o)) (hsmall : Small accounts balance L)
    (hsound' : (L.post payer payee (-amt) amt).Sound accounts.toFinset (fun o => balance o))
    (hne : payer ≠ payee) (hpayer : payer ∈ accounts) (hpayee : payee ∈ accounts)
    (hover : 2 ^ 63 ≤ L.value (fun o => balance o) payee + amt) {read : Nat × Int}
    (hread : Protosim.readCommittedWords build s payee = some read) : read.2 < 0 := by
  have hvalue : ∀ o, (L.post payer payee (-amt) amt).value (fun o => (balance o : Int)) o =
      L.value (fun o => balance o) o +
        ((if o = payer then -amt else 0) + if o = payee then amt else 0) :=
    Ledger.value_post hne (-amt) amt
  have hold : ∀ o ∈ accounts, L.value (fun o => balance o) o < 2 ^ 63 := fun o ho => by
    rw [← Ledger.valueAt_length o le_rfl]
    exact hsmall o ho _
  have hamt : amt ≤ L.value (fun o => balance o) payer := by
    have hsolvent := hsound'.solvent payer (List.mem_toFinset.mpr hpayer)
      ((L.post payer payee (-amt) amt) payer).length
    rw [Ledger.valueAt_length payer le_rfl, hvalue, if_pos rfl, if_neg hne] at hsolvent
    omega
  have hposted : (L.post payer payee (-amt) amt).value (fun o => balance o) payee =
      L.value (fun o => balance o) payee + amt := by
    rw [hvalue, if_neg hne.symm, if_pos rfl, zero_add]
  have hlength : ((L.post payer payee (-amt) amt) payee).length = (L payee).length + 1 := by
    rw [Ledger.post, if_neg hne.symm, if_pos rfl, List.length_append, List.length_singleton]
  have hearlier : ∀ n ≤ (L payee).length,
      (L.post payer payee (-amt) amt).valueAt (fun o => (balance o : Int)) payee n =
        L.valueAt (fun o => balance o) payee n := fun n hn =>
    (extends_post L payer payee (-amt) amt).valueAt hn
  have hpayerSmall := hold payer hpayer
  have hpayeeSmall := hold payee hpayee
  refine h.readCommittedWords_over hpayee hlength (fun n hn => ?_) (fun n hn => ?_) ?_ ?_ hread
  · rw [hearlier n hn]
    exact hsound.solvent payee (List.mem_toFinset.mpr hpayee) n
  · rw [hearlier n hn]
    exact hsmall payee hpayee n
  · rwa [hposted]
  · rw [hposted]
    omega

variable {S : Setup α τ} {m : Sim α τ}

/-- Where the accounts are small, a pick is as it is without overflow. -/
theorem Inv.pickWords (h : Inv S m L) (hsmall : Small S.accounts S.balance L) (p : τ × Tick) :
    Sim.pickWords build (some m) p = some (m.pick p.1 p.2) := by
  have hread : ∀ o ∈ S.accounts, readCommittedWords build m.store o =
      some (readCommitted m.store o) := fun o ho => h.books.readCommittedWords h.sound hsmall ho
  have hc := (h.knows p.1).carries
  have hmem : (m.workers p.1).low ∈ S.accounts ∧ (m.workers p.1).high ∈ S.accounts ∧
      (m.workers p.1).payer ∈ S.accounts := by
    have hpayer := (S.transfer p.1).payer_mem
    have hpayee := (S.transfer p.1).payee_mem
    rw [hc.payer_eq]
    rcases hc.sides with ⟨hl, hh, -⟩ | ⟨hl, hh, -⟩
    · rw [hl, hh]
      exact ⟨hpayer, hpayee, hpayer⟩
    · rw [hl, hh]
      exact ⟨hpayee, hpayer, hpayer⟩
  have hnext : (m.workers p.1).nextWords build m.store p.2 =
      some ((m.workers p.1).next m.store p.2) := by
    unfold Xfer.nextWords
    cases hstep : (m.workers p.1).step with
    | read =>
      unfold Xfer.next
      rw [hstep, hread _ hmem.1, hread _ hmem.2.1, hread _ hmem.2.2]
      dsimp only [Option.bind_some]
      by_cases hlow : (m.workers p.1).low = (m.workers p.1).payer
      · simp only [if_pos hlow, Option.map_some]
      · simp only [if_neg hlow, Option.map_some]
    | _ => rfl
  rw [Sim.pickWords, Option.bind_some, hnext]
  rfl

/-- A commit leaves the payee with a signed word. -/
def Fits (S : Setup α τ) (m : Option (Sim α τ)) (p : τ × Tick) : Prop :=
  ∀ sim, m = some sim → Commits sim.store p.1 (sim.workers p.1) →
    (readCommitted sim.store (S.transfer p.1).payee).2 + (S.transfer p.1).amt < 2 ^ 63

/-- There is a state, and its accounts read in signed words are as the oracle wants them. -/
def SafeWords (build : Build) (S : Setup α τ) (m : Option (Sim α τ)) : Prop :=
  ∃ sim, m = some sim ∧ ∃ read, (∀ o ∈ S.accounts,
    readCommittedWords build sim.store o = some (read o)) ∧ Safe S sim read

/-- The invariant of the runs whose commits fit. -/
def InvWords (S : Setup α τ) (m : Option (Sim α τ)) : Prop :=
  ∃ sim L, m = some sim ∧ Inv S sim L ∧ Small S.accounts S.balance L

theorem InvWords.safe {m : Option (Sim α τ)} (h : InvWords S m) : SafeWords build S m := by
  obtain ⟨sim, L, rfl, hinv, hsmall⟩ := h
  exact ⟨sim, rfl, readCommitted sim.store,
    fun o ho => hinv.books.readCommittedWords hinv.sound hsmall ho, hinv.safe⟩

theorem invWords_start [LinearOrder α] (S : Setup α τ) : InvWords S (some S.start) := by
  refine ⟨S.start, _, rfl, inv_start S, fun o _ n => ?_⟩
  have hlt := S.balance_lt o
  simp only [Ledger.valueAt, List.take_nil, List.sum_nil, add_zero]
  exact_mod_cast hlt

theorem Inv.payer_ne_payee (h : Inv S m L) {tid : τ}
    (hcommits : Commits m.store tid (m.workers tid)) :
    (S.transfer tid).payer ≠ (S.transfer tid).payee := by
  have hne := (h.knows tid).sides_ne h.books hcommits
  rcases (h.knows tid).carries.sides with ⟨hl, hh, -⟩ | ⟨hl, hh, -⟩
  · rwa [hl, hh] at hne
  · rw [hl, hh] at hne
    exact hne.symm

theorem InvWords.step {m : Option (Sim α τ)} {p : τ × Tick} (h : InvWords S m)
    (hfits : Fits S m p) : InvWords S (Sim.pickWords build m p) := by
  obtain ⟨sim, L, rfl, hinv, hsmall⟩ := h
  rw [hinv.pickWords hsmall]
  obtain ⟨L', hinv', hL⟩ := inv_pick hinv p.1 p.2
  refine ⟨_, L', rfl, hinv', ?_⟩
  rcases hL with ⟨-, rfl⟩ | ⟨hcommits, rfl⟩
  · exact hsmall
  · intro o ho n
    have hfits := hfits sim rfl hcommits
    have hamt := (S.transfer p.1).amt_pos
    have hne := hinv.payer_ne_payee hcommits
    have hold : L.value (fun o => S.balance o) o < 2 ^ 63 := by
      rw [← Ledger.valueAt_length o le_rfl]
      exact hsmall o ho _
    rcases Ledger.valueAt_post (fun o => (S.balance o : Int)) L _ _ _ _ o n with heq | heq
    · rw [heq]
      exact hsmall o ho n
    · rw [heq, Ledger.value_post hne]
      by_cases hpayer : o = (S.transfer p.1).payer
      · rw [if_pos hpayer, if_neg (hpayer ▸ hne)]
        omega
      · by_cases hpayee : o = (S.transfer p.1).payee
        · rw [hinv.books.readCommitted (S.transfer p.1).payee_mem] at hfits
          rw [if_neg hpayer, if_pos hpayee, hpayee, zero_add]
          exact hfits
        · rw [if_neg hpayer, if_neg hpayee]
          omega

/-- After a commit that does not fit, the payee's balance cannot be read, or is negative. -/
theorem InvWords.broken {m : Option (Sim α τ)} {p : τ × Tick} (h : InvWords S m)
    (hfits : ¬ Fits S m p) : ¬ SafeWords build S (Sim.pickWords build m p) := by
  obtain ⟨sim, L, rfl, hinv, hsmall⟩ := h
  rw [hinv.pickWords hsmall]
  rintro ⟨after, hafter, read, hread, hsafe⟩
  cases hafter
  refine hfits ?_
  rintro _ ⟨⟩ hcommits
  obtain ⟨L', hinv', hL⟩ := inv_pick hinv p.1 p.2
  obtain ⟨-, rfl⟩ := hL.resolve_left fun h => h.1 hcommits
  have hmem := (S.transfer p.1).payee_mem
  rw [hinv.books.readCommitted hmem]
  change L.value (fun o => S.balance o) _ + _ < 2 ^ 63
  by_contra hover
  have hneg := hinv'.books.read_posted hinv.sound hsmall hinv'.sound
    (hinv.payer_ne_payee hcommits) (S.transfer p.1).payer_mem hmem (not_lt.mp hover)
    (hread _ hmem)
  exact absurd (hsafe.nonneg _ hmem) (not_le.mpr hneg)

/-- Where all the money there is makes a signed word, every commit fits. -/
theorem InvWords.fits {m : Option (Sim α τ)} (h : InvWords S m)
    (htotal : ∑ o ∈ S.accounts.toFinset, (S.balance o : Int) < 2 ^ 63) (p : τ × Tick) :
    Fits S m p := by
  obtain ⟨sim, L, rfl, hinv, hsmall⟩ := h
  rintro _ ⟨⟩ hcommits
  have hmem := (S.transfer p.1).payee_mem
  obtain ⟨L', hinv', hL⟩ := inv_pick hinv p.1 p.2
  obtain ⟨-, rfl⟩ := hL.resolve_left fun h => h.1 hcommits
  have hne := hinv.payer_ne_payee hcommits
  have hbound := hinv'.sound.bounded _ (List.mem_toFinset.mpr hmem)
    ((L.post (S.transfer p.1).payer (S.transfer p.1).payee (-(S.transfer p.1).amt)
      (S.transfer p.1).amt) (S.transfer p.1).payee).length
  rw [Ledger.valueAt_length _ le_rfl, Ledger.value_post hne, if_neg hne.symm, if_pos rfl,
    zero_add] at hbound
  rw [hinv.books.readCommitted hmem]
  exact hbound.trans_lt htotal

theorem guarded_of_total [LinearOrder α] (S : Setup α τ)
    (htotal : ∑ o ∈ S.accounts.toFinset, (S.balance o : Int) < 2 ^ 63)
    (picks : List (τ × Tick)) :
    Runs.Guarded (Sim.pickWords build) (Fits S) (some S.start) picks := by
  suffices hrun : ∀ m, InvWords S m → Runs.Guarded (Sim.pickWords build) (Fits S) m picks from
    hrun _ (invWords_start S)
  intro m h
  induction picks generalizing m with
  | nil => trivial
  | cons p picks ih => exact ⟨h.fits htotal p, ih _ (h.step (h.fits htotal p))⟩

section Outcome

variable {y : τ} {c : Cell τ}

theorem outcome_create {k : Key α τ} {c' : Cell τ} (h : s.get (.outcome y) = some c) :
    (s.create k c').2.get (.outcome y) = some c := by
  unfold Store.create
  split_ifs with hfree
  · rw [Store.get_insert, if_neg]
    · exact h
    · rintro rfl
      rw [h] at hfree
      cases hfree
  · exact h

theorem outcome_delete (o : α) (seq : Nat) (h : s.get (.outcome y) = some c) :
    (s.delete (.log o seq)).get (.outcome y) = some c := by
  rw [Store.get_delete, if_neg (fun h => by cases h)]
  exact h

theorem outcome_resolveSlot (o : α) (seq now : Nat) (h : s.get (.outcome y) = some c) :
    (resolveSlot s o seq now).2.get (.outcome y) = some c := by
  unfold resolveSlot
  cases s.get (.log o seq) with
  | none => exact h
  | some cell =>
    cases cell with
    | base | outcome => exact h
    | log tid delta born =>
      dsimp only
      cases resolved s tid with
      | some b =>
        cases b with
        | true => exact h
        | false => exact outcome_delete o seq h
      | none =>
        dsimp only
        split_ifs
        · exact h
        · exact outcome_delete o seq (outcome_create h)
        · exact outcome_create h

theorem outcome_safeDelete (o : α) (seq : Nat) (tid : τ) (h : s.get (.outcome y) = some c) :
    (safeDelete s (.log o seq) tid).get (.outcome y) = some c := by
  unfold safeDelete
  split
  · split_ifs
    · exact outcome_delete o seq h
    · exact h
  · exact h

theorem outcome_rollback (x : Xfer α τ) (h : s.get (.outcome y) = some c) :
    (x.rollback s).2.get (.outcome y) = some c := by
  unfold Xfer.rollback
  dsimp only
  split_ifs
  · exact outcome_safeDelete _ _ _ (outcome_safeDelete _ _ _ h)
  · exact outcome_safeDelete _ _ _ h
  · exact outcome_safeDelete _ _ _ h
  · exact h

/-- No step overwrites or deletes an outcome. -/
theorem outcome_next (x : Xfer α τ) (tick : Tick) (h : s.get (.outcome y) = some c) :
    (x.next s tick).2.get (.outcome y) = some c := by
  have hreset : ∀ (x : Xfer α τ) (s : Store α τ), s.get (.outcome y) = some c →
      (x.resetOrGiveup s).2.get (.outcome y) = some c := fun x s h => outcome_rollback x h
  cases hstep : x.step with
  | read =>
    have hsame : (x.next s tick).2 = s := by
      unfold Xfer.next
      rw [hstep]
      dsimp only
      split_ifs <;> rfl
    rw [hsame]
    exact h
  | preLow =>
    by_cases hfree : s.get (.log x.low (x.lowSeq + 1)) = none
    · rw [Xfer.next_preLow_free hstep hfree, Store.get_insert, if_neg (fun h => by cases h)]
      exact h
    · rw [Xfer.next_preLow_taken hstep hfree]
      split_ifs
      · exact outcome_resolveSlot _ _ _ h
      · exact hreset _ _ (outcome_resolveSlot _ _ _ h)
  | preHigh =>
    by_cases hfree : s.get (.log x.high (x.highSeq + 1)) = none
    · rw [Xfer.next_preHigh_free hstep hfree, Store.get_insert, if_neg (fun h => by cases h)]
      exact h
    · rw [Xfer.next_preHigh_taken hstep hfree]
      split_ifs
      · exact outcome_resolveSlot _ _ _ h
      · exact hreset _ _ (outcome_rollback _ (outcome_resolveSlot _ _ _ h))
  | commit =>
    by_cases hfree : s.get (.outcome x.tid) = none
    · rw [Xfer.next_commit_free hstep hfree, Store.get_insert, if_neg]
      · exact h
      · rintro ⟨⟩
        rw [h] at hfree
        cases hfree
    · rw [Xfer.next_commit_taken hstep hfree]
      exact hreset _ _ (outcome_rollback _ h)
  | done | aborted | crashed => simpa only [Xfer.next, hstep] using h

theorem outcome_nextWords {x x' : Xfer α τ} {s' : Store α τ} {tick : Tick}
    (hnext : x.nextWords build s tick = some (x', s')) (h : s.get (.outcome y) = some c) :
    s'.get (.outcome y) = some c := by
  unfold Xfer.nextWords at hnext
  cases hstep : x.step with
  | read =>
    rw [hstep] at hnext
    obtain ⟨low, -, hnext⟩ := Option.bind_eq_some_iff.mp hnext
    obtain ⟨high, -, hnext⟩ := Option.bind_eq_some_iff.mp hnext
    obtain ⟨payerVal, -, hnext⟩ := Option.map_eq_some_iff.mp hnext
    split_ifs at hnext
    · cases hnext
      exact h
    · cases hnext
      exact h
  | _ =>
    rw [hstep] at hnext
    have hstore : (x.next s tick).2 = s' := congrArg Prod.snd (Option.some.inj hnext)
    rw [← hstore]
    exact outcome_next x tick h

end Outcome

/-- After a panic there is nothing. -/
theorem run_none (picks : List (τ × Tick)) :
    Runs.run (Sim.pickWords build) (none : Option (Sim α τ)) picks = none := by
  induction picks with
  | nil => rfl
  | cons p picks ih => exact ih

/-- An outcome, once decided, stays. -/
theorem decided_run {m m' : Sim α τ} {picks : List (τ × Tick)}
    (hrun : Runs.run (Sim.pickWords build) (some m) picks = some m') {tid : τ} {b : Bool}
    (h : resolved m.store tid = some b) : resolved m'.store tid = some b := by
  have hkey : ∀ s : Store α τ, resolved s tid = some b ↔
      s.get (.outcome tid) = some (.outcome b) := by
    intro s
    unfold resolved
    cases s.get (.outcome tid) with
    | none => simp
    | some cell =>
      cases cell with
      | base | log => simp
      | outcome c => simp
  rw [hkey] at h ⊢
  induction picks generalizing m with
  | nil =>
    cases hrun
    exact h
  | cons p picks ih =>
    change Runs.run (Sim.pickWords build) (Sim.pickWords build (some m) p) picks = _ at hrun
    cases hpick : Sim.pickWords build (some m) p with
    | none =>
      rw [hpick, run_none] at hrun
      cases hrun
    | some after =>
      rw [hpick] at hrun
      obtain ⟨⟨x, s⟩, hnext, rfl⟩ := Option.map_eq_some_iff.mp hpick
      exact ih hrun (outcome_nextWords hnext h)

/-- In words, a run is safe throughout exactly when every commit leaves its payee with a signed
word; and in every run an outcome, once decided, stays. -/
theorem transfers_safe_iff [LinearOrder α] (build : Build) (S : Setup α τ)
    (picks : List (τ × Tick)) :
    (Runs.Throughout (Sim.pickWords build) (SafeWords build S) (some S.start) picks ↔
      Runs.Guarded (Sim.pickWords build) (Fits S) (some S.start) picks) ∧
    ∀ m later m', Runs.run (Sim.pickWords build) (some S.start) picks = some m →
      Runs.run (Sim.pickWords build) (some m) later = some m' →
      ∀ tid b, resolved m.store tid = some b → resolved m'.store tid = some b :=
  ⟨Runs.throughout_iff_guarded (fun _ _ h => h.step) (fun _ h => h.safe) (fun _ _ h => h.broken)
    (invWords_start S), fun _ _ _ _ hrun _ _ => decided_run hrun⟩

/-- Two accounts with as much as a signed word holds, and a transfer of one from the first. -/
def brimful : Setup Nat Unit where
  accounts := [0, 1]
  balance _ := 2 ^ 63 - 1
  balance_lt _ := by decide
  transfer _ :=
    { payer := 0, payee := 1, amt := 1, pauses := 0, crash := false, payer_mem := by decide
      payee_mem := by decide, amt_pos := by decide }

/-- Once it is committed the second account is negative where sums wrap, and cannot be read where
they are checked. -/
theorem brimful_overflows :
    ¬ Runs.Throughout (Sim.pickWords .release) (SafeWords .release brimful) (some brimful.start)
      (List.replicate 4 ((), ⟨0, 0, 0⟩)) ∧
    ¬ Runs.Throughout (Sim.pickWords .debug) (SafeWords .debug brimful) (some brimful.start)
      (List.replicate 4 ((), ⟨0, 0, 0⟩)) := by
  constructor
  · intro h
    obtain ⟨sim, hsim, read, hread, hsafe⟩ := h.last
    have hone : (Runs.run (Sim.pickWords .release) (some brimful.start)
        (List.replicate 4 ((), ⟨0, 0, 0⟩))).bind
          (fun sim => readCommittedWords .release sim.store 1) = some (1, -2 ^ 63) := by decide
    rw [hsim, Option.bind_some, hread 1 (by decide)] at hone
    have hneg := hsafe.nonneg 1 (by decide)
    rw [Option.some.inj hone] at hneg
    exact absurd hneg (by decide)
  · intro h
    obtain ⟨sim, hsim, read, hread, hsafe⟩ := h.last
    have hone : (Runs.run (Sim.pickWords .debug) (some brimful.start)
        (List.replicate 4 ((), ⟨0, 0, 0⟩))).bind
          (fun sim => readCommittedWords .debug sim.store 1) = none := by decide
    rw [hsim, Option.bind_some, hread 1 (by decide)] at hone
    cases hone

end Fafo.Protosim
