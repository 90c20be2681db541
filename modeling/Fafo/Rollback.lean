import Fafo.FoldFaults

/-! The roll-back of a failed boat whose commit may have landed all the same. -/
namespace Fafo

open Interleave

variable {ι τ β δ : Type} [LinearOrder ι] [DecidableEq τ]

/-- Every committed entry of `w` is still in `w'`. -/
def CommittedKept (w w' : LogWorld ι τ β δ) : Prop :=
  ∀ id seq e, entryAt w id seq = some e → verdict w e.txn = some true → entryAt w' id seq = some e

/-- From operation number `n` on, no roll-back goes through because the outcome could not be read:
where that get fails, the get of the slot fails too, or the slot is not the transaction's, or the
delete fails. -/
def Spares (w : LogWorld ι τ β δ) (txn : τ) (env : Nat → Env) : List (ι × Nat) → Nat → Prop
  | [], _ => True
  | (id, seq) :: rest, n =>
    (Works env n → Spares w txn env rest (n + 1)) ∧
    (¬ Works env n → ¬ Works env (n + 1) ∨ ¬ Holds w id seq txn →
      Spares w txn env rest (n + 2)) ∧
    (¬ Works env n → Works env (n + 1) → Holds w id seq txn →
      (env (n + 2)).fault = .failed ∧ Spares w txn env rest (n + 3))

section Entry

variable {w : LogWorld ι τ β δ} {id : ι} {seq n : Nat} {txn : τ} {env : Nat → Env}

theorem holds_iff : Holds w id seq txn ↔
    ∃ e, (w.get (.log id seq)).bind decodeEntry = some e ∧ e.txn = txn := Iff.rfl

/-- A delete that works or loses its acknowledgement takes effect. -/
theorem ends_delete (key : Key ι τ) :
    (ends env (Store.delete key) n w).next = n + 1 ∧
    (ends env (Store.delete key) n w).state =
      if (env n).fault = .failed then w else w.effect (.delete key) := by
  refine ⟨rfl, ?_⟩
  change (exec (env n) (.store (.delete key)) w).2 = _
  cases hf : (env n).fault <;> simp [exec, hf]

theorem ends_deleteIfTxn_spares (h : ¬ Works env n ∨ ¬ Holds w id seq txn) :
    (ends env (deleteIfTxn (.log id seq) txn) n w).next = n + 1 ∧
      (ends env (deleteIfTxn (.log id seq) txn) n w).state = w := by
  rw [deleteIfTxn, ends_get]
  by_cases hget : Works env n
  · have hholds := h.resolve_left (not_not.mpr hget)
    rw [if_pos hget]
    cases he : (w.get (.log id seq)).bind decodeEntry with
    | none => exact ⟨rfl, rfl⟩
    | some e =>
      have htxn : e.txn ≠ txn := fun htxn => hholds ⟨e, he, htxn⟩
      simp only [htxn, if_false]
      exact ⟨rfl, rfl⟩
  · rw [if_neg hget]
    exact ⟨rfl, rfl⟩

theorem ends_deleteIfTxn_holds (hget : Works env n) (h : Holds w id seq txn) :
    ends env (deleteIfTxn (.log id seq) txn) n w =
      ends env (Store.delete (.log id seq)) (n + 1) w := by
  obtain ⟨e, he, rfl⟩ := holds_iff.mp h
  rw [deleteIfTxn, ends_get, if_pos hget]
  simp only [he, if_true]

theorem ends_clearEntry_reads (hv : verdict w txn = some true) (hw : Works env n) :
    ends env (clearEntry id seq txn) n w = ⟨.ok (), n + 1, w⟩ := by
  rw [clearEntry, ends, Prog.solo_bind_of_eq node env (ends_committed w txn)]
  simp [hw, hv]

/-- The outcome that could not be read passes for one that is not there. -/
theorem ends_clearEntry_misreads (hw : ¬ Works env n) :
    ends env (clearEntry id seq txn) n w =
      ends env (deleteIfTxn (.log id seq) txn) (n + 1) w := by
  rw [clearEntry, ends, Prog.solo_bind_of_eq node env (ends_committed w txn)]
  simp [hw]

/-- Only an entry of `txn` is ever deleted. -/
theorem deleteIfTxn_state :
    (ends env (deleteIfTxn (.log id seq) txn) n w).state = w ∨ Holds w id seq txn ∧
      (ends env (deleteIfTxn (.log id seq) txn) n w).state = w.effect (.delete (.log id seq)) := by
  by_cases h : Works env n ∧ Holds w id seq txn
  · obtain ⟨hget, hholds⟩ := h
    rw [ends_deleteIfTxn_holds hget hholds, (ends_delete _).2]
    split
    · exact .inl rfl
    · exact .inr ⟨hholds, rfl⟩
  · exact .inl (ends_deleteIfTxn_spares (by tauto)).2

theorem clearEntry_state (w : LogWorld ι τ β δ) (id : ι) (seq n : Nat) :
    (ends env (clearEntry id seq txn) n w).state = w ∨ Holds w id seq txn ∧
      (ends env (clearEntry id seq txn) n w).state = w.effect (.delete (.log id seq)) := by
  rw [clearEntry, ends, Prog.solo_bind_of_eq node env (ends_committed w txn)]
  split
  · exact .inl rfl
  · exact deleteIfTxn_state

end Entry

section RollBack

variable {w : LogWorld ι τ β δ} {txn : τ} {env : Nat → Env}

/-- Decisions stay as they are, and entries can only go. -/
structure Erodes (w w' : LogWorld ι τ β δ) : Prop where
  decided : ∀ txn, verdict w' txn = verdict w txn
  entries : ∀ id seq e, entryAt w' id seq = some e → entryAt w id seq = some e

theorem Erodes.trans {w w' w'' : LogWorld ι τ β δ} (h : Erodes w w') (h' : Erodes w' w'') :
    Erodes w w'' :=
  ⟨fun txn => (h'.decided txn).trans (h.decided txn),
    fun id seq e he => h.entries id seq e (h'.entries id seq e he)⟩

theorem erodes_delete (w : LogWorld ι τ β δ) (id : ι) (seq : Nat) :
    Erodes w (w.effect (.delete (.log id seq))) := by
  refine ⟨fun x => by simp [verdict, World.get_delete], fun i s e he => ?_⟩
  rw [entryAt_unlock] at he
  split at he
  · cases he
  · exact he

theorem clearEntry_erodes (txn : τ) (env : Nat → Env) (w : LogWorld ι τ β δ) (id : ι)
    (seq n : Nat) : Erodes w (ends env (clearEntry id seq txn) n w).state := by
  rcases clearEntry_state w id seq n with h | ⟨_, h⟩
  · rw [h]
    exact ⟨fun _ => rfl, fun _ _ _ he => he⟩
  · rw [h]
    exact erodes_delete w id seq

theorem clearAll_cons (id : ι) (seq n : Nat) (rest : List (ι × Nat)) :
    ends env (clearAll txn ((id, seq) :: rest)) n w =
      ends env (clearAll txn rest) (ends env (clearEntry id seq txn) n w).next
        (ends env (clearEntry id seq txn) n w).state := Prog.solo_bind node env _ _ n w

theorem clearAll_erodes (prewritten : List (ι × Nat)) (n : Nat) (w : LogWorld ι τ β δ) :
    Erodes w (ends env (clearAll txn prewritten) n w).state := by
  induction prewritten generalizing n w with
  | nil => exact ⟨fun _ => rfl, fun _ _ _ he => he⟩
  | cons entry rest ih =>
    obtain ⟨id, seq⟩ := entry
    rw [clearAll_cons]
    exact (clearEntry_erodes txn env w id seq n).trans (ih _ _)

/-- A transaction that did not commit takes no committed entry with it. -/
theorem clearAll_kept (hv : verdict w txn ≠ some true) (prewritten : List (ι × Nat)) (n : Nat) :
    CommittedKept w (ends env (clearAll txn prewritten) n w).state := by
  induction prewritten generalizing n w with
  | nil => exact fun _ _ _ he _ => he
  | cons entry rest ih =>
    obtain ⟨id, seq⟩ := entry
    have herodes := clearEntry_erodes txn env w id seq n
    intro i s e he hve
    rw [clearAll_cons]
    refine ih ((herodes.decided txn).symm ▸ hv) _ i s e ?_ ((herodes.decided e.txn).symm ▸ hve)
    rcases clearEntry_state w id seq n with h | ⟨hholds, h⟩
    · rwa [h]
    · rw [h, entryAt_unlock, if_neg]
      · exact he
      · rintro ⟨rfl, rfl⟩
        obtain ⟨e', he', htxn⟩ := hholds
        rw [he] at he'
        cases he'
        exact hv (htxn ▸ hve)

theorem clearAll_spares (hv : verdict w txn = some true) (prewritten : List (ι × Nat)) (n : Nat)
    (h : Spares w txn env prewritten n) :
    (ends env (clearAll txn prewritten) n w).state = w := by
  induction prewritten generalizing n with
  | nil => rfl
  | cons entry rest ih =>
    obtain ⟨id, seq⟩ := entry
    obtain ⟨hreads, hstops, hfails⟩ := h
    rw [clearAll_cons]
    by_cases hw : Works env n
    · rw [ends_clearEntry_reads hv hw]
      exact ih _ (hreads hw)
    rw [ends_clearEntry_misreads hw]
    by_cases hget : Works env (n + 1) ∧ Holds w id seq txn
    · obtain ⟨hget, hholds⟩ := hget
      obtain ⟨hfault, hrest⟩ := hfails hw hget hholds
      rw [ends_deleteIfTxn_holds hget hholds, (ends_delete _).1, (ends_delete _).2, if_pos hfault]
      exact ih _ hrest
    · have hor : ¬ Works env (n + 1) ∨ ¬ Holds w id seq txn := by tauto
      obtain ⟨hnext, hstate⟩ := ends_deleteIfTxn_spares hor
      rw [hnext, hstate]
      exact ih _ (hstops hw hor)

/-- Where a roll-back goes through, the entry is gone for good. -/
theorem clearAll_erases (hv : verdict w txn = some true) (prewritten : List (ι × Nat)) (n : Nat)
    (h : ¬ Spares w txn env prewritten n) : ∃ id seq, Holds w id seq txn ∧
      entryAt (ends env (clearAll txn prewritten) n w).state id seq = none := by
  induction prewritten generalizing n with
  | nil => exact absurd trivial h
  | cons entry rest ih =>
    obtain ⟨id, seq⟩ := entry
    rw [clearAll_cons]
    by_cases hw : Works env n
    · rw [ends_clearEntry_reads hv hw]
      exact ih _ fun hrest => h ⟨fun _ => hrest, fun hn => absurd hw hn, fun hn => absurd hw hn⟩
    rw [ends_clearEntry_misreads hw]
    by_cases hget : Works env (n + 1) ∧ Holds w id seq txn
    · obtain ⟨hget, hholds⟩ := hget
      rw [ends_deleteIfTxn_holds hget hholds, (ends_delete _).1, (ends_delete _).2]
      split
      · next hfault =>
        refine ih _ fun hrest => h ⟨fun h => absurd h hw, ?_, fun _ _ _ => ⟨hfault, hrest⟩⟩
        rintro _ (hno | hno)
        · exact absurd hget hno
        · exact absurd hholds hno
      · refine ⟨id, seq, hholds, ?_⟩
        have hgone : entryAt (w.effect (.delete (.log id seq))) id seq = none := by
          rw [entryAt_unlock, if_pos ⟨rfl, rfl⟩]
        cases he : entryAt (ends env (clearAll txn rest) (n + 1 + 1 + 1)
            (w.effect (.delete (.log id seq)))).state id seq with
        | none => rfl
        | some e =>
          have hback := (clearAll_erodes rest _ _).entries id seq e he
          rw [hgone] at hback
          cases hback
    · have hor : ¬ Works env (n + 1) ∨ ¬ Holds w id seq txn := by tauto
      obtain ⟨hnext, hstate⟩ := ends_deleteIfTxn_spares hor
      rw [hnext, hstate]
      refine ih _ fun hrest => h ⟨fun h => absurd h hw, fun _ _ => hrest, fun _ hg hh => ?_⟩
      exact absurd ⟨hg, hh⟩ hget

/-- Operations that touch neither the log nor the outcomes. -/
def OffLog : NodeOp (Key ι τ) (Blob τ β δ) (Note ι τ β) → Prop
  | .store (.delete (.staging ..)) | .note _ => True
  | _ => False

/-- The same entries. -/
def SameLog (w w' : LogWorld ι τ β δ) : Prop := entryAt w' = entryAt w

theorem sameLog_offLog (e : Env) (o : NodeOp (Key ι τ) (Blob τ β δ) (Note ι τ β))
    (w : LogWorld ι τ β δ) (ho : OffLog o) : SameLog w (exec e o w).2 := by
  obtain (_ | _ | key | _ | _) | _ | _ | n := o
  · exact ho.elim
  · exact ho.elim
  · cases key with
    | staging txn id =>
      have hdelete : SameLog w (w.effect (.delete (.staging txn id))) := by
        funext i s
        simp [entryAt, World.get_delete]
      unfold exec
      split
      · exact hdelete
      · rfl
      · exact hdelete
    | log | base | outcome => exact ho.elim
  · exact ho.elim
  · exact ho.elim
  · exact ho.elim
  · exact ho.elim
  · rfl

omit [LinearOrder ι] [DecidableEq τ] in
theorem unstageAll_offLog (txn : τ) (items : List (ShipItem ι β δ)) :
    (unstageAll txn items : NotedTask ι τ β δ Unit).Only OffLog := by
  induction items with
  | nil => trivial
  | cons item items ih => exact ⟨trivial, fun _ => ih⟩

theorem shipFailed_state (items : List (ShipItem ι β δ)) (inline : Bool)
    (prewritten : List (ι × Nat)) (err : ShipError ι) (rebased : Option ι)
    (w : LogWorld ι τ β δ) :
    SameLog (ends env (clearAll txn prewritten) 1
        { w with notes := .abandoned txn :: w.notes }).state
      (ends env (shipFailed txn items inline prewritten err rebased) 0 w).state := by
  have hrest : ((if inline then .ret () else unstageAll txn items : NotedTask ι τ β δ Unit).bind
      fun _ => (note (.answered txn (some err))).bind fun _ =>
        .ret (⟨items.map (·.object), false, rebased⟩ : ShipDone ι)).Only OffLog := by
    refine Prog.Only.bind ?_ fun _ => ⟨trivial, fun _ => trivial⟩
    split
    · trivial
    · exact unstageAll_offLog txn items
  change SameLog _ (Prog.solo node env (Prog.bind (clearAll txn prewritten) _) 1
    { w with notes := .abandoned txn :: w.notes }).state
  rw [Prog.solo_bind]
  exact hrest.solo node env SameLog (fun _ => rfl) (fun _ _ _ h h' => h'.trans h)
    (fun e o s ho => sameLog_offLog e o s ho) _ _

theorem Spares.same {w w' : LogWorld ι τ β δ} (h : SameLog w w') {prewritten : List (ι × Nat)}
    {n : Nat} : Spares w' txn env prewritten n ↔ Spares w txn env prewritten n := by
  have hholds : ∀ id seq, Holds w' id seq txn ↔ Holds w id seq txn := by
    intro id seq
    unfold Holds
    rw [show entryAt w' = entryAt w from h]
  induction prewritten generalizing n with
  | nil => exact .rfl
  | cons entry rest ih =>
    obtain ⟨id, seq⟩ := entry
    simp only [Spares, ih, hholds]

/-- `ship_task`'s error path, for any boat, any store and any pattern of faults: committed entries
stay exactly when the boat's transaction is not committed, or every roll-back spares it. -/
theorem rollback_keeps_committed_iff (env : Nat → Env) (txn : τ) (items : List (ShipItem ι β δ))
    (inline : Bool) (prewritten : List (ι × Nat)) (err : ShipError ι) (rebased : Option ι)
    (w : LogWorld ι τ β δ) :
    CommittedKept w (ends env (shipFailed txn items inline prewritten err rebased) 0 w).state ↔
      (verdict w txn = some true → Spares w txn env prewritten 1) := by
  have hsame : entryAt (ends env (shipFailed txn items inline prewritten err rebased) 0 w).state =
      entryAt (ends env (clearAll txn prewritten) 1
        { w with notes := .abandoned txn :: w.notes }).state :=
    shipFailed_state items inline prewritten err rebased w
  have hnoted : SameLog w { w with notes := .abandoned txn :: w.notes } := rfl
  constructor
  · intro hkept hv
    by_contra hspares
    obtain ⟨id, seq, ⟨e, he, rfl⟩, hgone⟩ := clearAll_erases
      (w := { w with notes := .abandoned txn :: w.notes }) hv prewritten 1
      (hspares ∘ (Spares.same hnoted).mp)
    have hstays := hkept id seq e he hv
    rw [hsame, hgone] at hstays
    cases hstays
  · intro hspares id seq e he hve
    rw [hsame]
    by_cases hv : verdict w txn = some true
    · rw [clearAll_spares (w := { w with notes := .abandoned txn :: w.notes }) hv prewritten 1
        ((Spares.same hnoted).mpr (hspares hv))]
      exact he
    · exact clearAll_kept (w := { w with notes := .abandoned txn :: w.notes }) hv prewritten 1 id
        seq e he hve

end RollBack

/-- Operation 8 takes effect and reports an error; operation 10 fails. -/
def unacknowledged (k : Nat) : Env :=
  { fault := if k = 8 then .lost else if k = 10 then .failed else .none, verdict := k = 0 }

/-- The boat's commit lands unacknowledged and the outcome cannot be read: the error path deletes
the committed entry. The same happens in a run of the whole boat from an empty store. -/
theorem unacknowledged_commit_torn :
    ¬ CommittedKept oneEntry
        (ends (fun k => unacknowledged (k + 9)) (shipFailed 0 [⟨0, .delta 1, 0⟩] true [(0, 1)]
          (.store .unavailable) none) 0 oneEntry).state ∧
      ∃ w : LogWorld Nat Nat Nat Nat,
        w = (ends unacknowledged (shipTask counterYard 0 [⟨0, .delta 1, 0⟩]) 0 {}).state ∧
          Note.prewritten 0 0 1 ∈ w.notes ∧ verdict w 0 = some true ∧ entryAt w 0 1 = none := by
  refine ⟨fun h => ?_, _, rfl, by decide, by decide, rfl⟩
  have hkept := h 0 1 ⟨0, 0, .delta 1⟩ rfl rfl
  cases hkept

end Fafo
