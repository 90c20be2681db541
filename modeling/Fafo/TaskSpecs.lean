import Fafo.LogSpecs

/-! Boats, compactions and durable reads keep to their guarantees. -/
namespace Fafo

open Interleave

variable {ι τ β δ α γ : Type} [LinearOrder ι] [DecidableEq τ]

section Specs

variable {M : Images β δ} {watched : τ → List ι} {who : τ}

theorem does_get {G : LogWorld ι τ β δ → LogWorld ι τ β δ → Prop} {key : Key ι τ}
    {f : Option (Blob τ β δ) → NotedTry ι τ β δ α} {Q : Except Error α → LogWorld ι τ β δ → Prop}
    {w : LogWorld ι τ β δ} (hread : ∀ t, G t t)
    (h : ∀ t, Rely M watched who w t →
      Sat reliable (Steady watched) (Rely M watched who) G Q (f (t.get key))
        (some ⟨.store (.get key), .ok (t.get key)⟩) t) :
    Does reliable (Steady watched) (Rely M watched who) G Q ((Store.get key).attempt f) w :=
  fun _ t ht _ _ => ⟨hread t, h t ht⟩

/-- `deleteIfTxn` deletes at most an entry of `txn`. -/
theorem does_deleteIfTxn {G : LogWorld ι τ β δ → LogWorld ι τ β δ → Prop} {id : ι} {seq : Nat}
    {txn : τ} {w : LogWorld ι τ β δ} (hread : ∀ t, G t t)
    (hdel : ∀ t, Rely M watched who w t → (∀ e, entryAt t id seq = some e → e.txn = txn) →
      G t (t.effect (.delete (.log id seq)))) :
    Does reliable (Steady watched) (Rely M watched who) G (fun _ _ => True)
      (deleteIfTxn (.log id seq) txn) w := by
  refine does_get hread fun t ht => ?_
  split
  · next held hheld =>
    split_ifs with htxn
    · intro u hu e' he'
      refine ⟨hdel u (ht.trans hu) fun now hnow => ?_, fun _ _ => trivial⟩
      obtain ⟨b, hb, hdec⟩ := Option.bind_eq_some_iff.mp hnow
      have hsame : (t.get (.log id seq)).bind holder = holder b := he'.1 b hb
      obtain ⟨b', hb', hdec'⟩ := Option.bind_eq_some_iff.mp hheld
      simp only [hb', Option.bind_some, holder, hdec', hdec, Option.map_some, Option.some.injEq]
        at hsame
      exact hsame.symm.trans htxn
    · exact fun _ _ => trivial
  · exact fun _ _ => trivial

theorem reads_deleteIfTxn {id : ι} {seq : Nat} {txn : τ} {w : LogWorld ι τ β δ}
    (h : verdict w txn = some false) :
    Reads M watched who (fun _ _ => True) (deleteIfTxn (.log id seq) txn) w := by
  refine does_deleteIfTxn quiet_refl fun t ht hheld => quiet_unlock fun e he => ?_
  rw [hheld e he]
  exact ht.1.grows.decided txn false h

/-- A create that finds its key free takes effect; any other one changes nothing. -/
theorem does_create {G : LogWorld ι τ β δ → LogWorld ι τ β δ → Prop} {key : Key ι τ}
    {b : Blob τ β δ} {f : Bool → NotedTry ι τ β δ α} {Q : Except Error α → LogWorld ι τ β δ → Prop}
    {w : LogWorld ι τ β δ} (hread : ∀ t, G t t)
    (hnew : ∀ t, Rely M watched who w t → t.get key = none →
      CommitsBetweenReads watched (.store (.create key b)) t →
      G t (t.effect (.create key b)) ∧
        Does reliable (Steady watched) (Rely M watched who) G Q (f true) (t.effect (.create key b)))
    (hold : ∀ t, Rely M watched who w t → t.get key ≠ none →
      Does reliable (Steady watched) (Rely M watched who) G Q (f false) t) :
    Does reliable (Steady watched) (Rely M watched who) G Q ((Store.create key b).attempt f) w := by
  refine Does.call fun t ht e last he => ?_
  change G t (t.effect (.create key b)) ∧
    Does _ _ _ _ _ (f (t.get key).isNone) (t.effect (.create key b))
  cases hkey : t.get key with
  | none => exact hnew t ht hkey he.2
  | some v =>
    have hsame : t.effect (.create key b) = t := by
      rw [World.effect_create, if_neg (by simp [hkey])]
    rw [hsame]
    exact ⟨hread t, hold t ht (by simp [hkey])⟩

theorem reads_abortTxn (txn : τ) (w : LogWorld ι τ β δ) :
    Reads M watched who (fun r t => r = .ok true → verdict t txn = some false)
      (abortTxn txn) w := by
  refine does_create quiet_refl (fun t _ hnone _ => ⟨quiet_abort t txn, ?_⟩) fun t _ _ => ?_
  · exact Does.ret fun u hu _ => hu.1.grows.decided txn false (verdict_create_self hnone)
  · refine Does.attempt ((reads_outcome txn t).mono ?_)
    rintro r u ⟨v, rfl, hthen, _⟩
    refine ⟨?_, by simp⟩
    rintro v' heq
    cases heq
    refine Does.ret fun x hx hr => hx.1.grows.decided txn false (hthen false ?_)
    simpa using hr

/-- A boat that may still commit: it has every entry it was told of, unless it was aborted. -/
structure Going (M : Images β δ) (watched : τ → List ι) (who : τ) (w : LogWorld ι τ β δ) :
    Prop where
  sound : Sound M watched w
  undecided : verdict w who ≠ some true
  going : Note.abandoned who ∉ w.notes
  placed : ∀ id seq, Note.prewritten who id seq ∈ w.notes →
    Holds w id seq who ∨ verdict w who = some false

theorem Going.evolves {w w' : LogWorld ι τ β δ} (h : Going M watched who w)
    (hw : Evolves M watched w w') (hv : verdict w' who = some true → verdict w who = some true)
    (hn : ∀ n : Note ι τ β, n.by = who → n ∈ w'.notes → n ∈ w.notes) :
    Going M watched who w' where
  sound := hw.sound h.sound
  undecided hv' := h.undecided (hv hv')
  going hn' := h.going (hn _ rfl hn')
  placed id seq hp := by
    rcases h.placed id seq (hn _ rfl hp) with ⟨e, he, rfl⟩ | hf
    · rcases hw.grows.dropped id seq e he with he' | hf | habandoned
      · exact .inl ⟨e, he', rfl⟩
      · exact .inr hf
      · exact absurd (hn _ rfl habandoned) h.going
    · exact .inr (hw.grows.decided _ _ hf)

theorem Going.rely {w w' : LogWorld ι τ β δ} (h : Going M watched who w)
    (hw : Rely M watched who w w') : Going M watched who w' :=
  h.evolves hw.1 hw.2.undecided fun n hn => (hw.2.noted n hn).mp

/-- The slot is taken, or the attempt is over. -/
def Taken (M : Images β δ) (watched : τ → List ι) (who : τ) (id : ι)
    (r : Except Error (Option Nat)) (w : LogWorld ι τ β δ) : Prop :=
  Going M watched who w ∧
    ∀ seq, r = .ok (some seq) → Holds w id seq who ∨ verdict w who = some false

theorem Taken.refused {id : ι} {w : LogWorld ι τ β δ} (h : Going M watched who w) :
    Runs M watched who (Taken M watched who id) (.ret (.ok none)) w :=
  Does.ret fun _ ht => ⟨h.rely ht, by simp⟩

theorem Taken.held {id : ι} {seq : Nat} {w : LogWorld ι τ β δ} (h : Going M watched who w)
    (hh : Holds w id seq who) :
    Runs M watched who (Taken M watched who id) (.ret (.ok (some seq))) w := by
  refine Does.ret fun t ht => ⟨h.rely ht, ?_⟩
  rintro seq' heq
  cases heq
  exact ht.2.locked id seq hh

theorem runs_takeSlot (id : ι) (e : LogEntry τ β δ) (n nowMs ttlMs tries : Nat)
    {w : LogWorld ι τ β δ} (htxn : e.txn = who) (hgo : Going M watched who w)
    (hto : CommittedTo w id n) :
    Runs M watched who (Taken M watched who id)
      (takeSlot id who e (n + 1) nowMs ttlMs tries) w := by
  induction tries generalizing w with
  | zero => exact Taken.refused hgo
  | succ tries ih =>
    refine does_create (fun t => (quiet_refl t).guarantee) (fun t ht hfree _ => ?_) fun t ht _ => ?_
    · -- the slot is free, and becomes ours
      have hgo' := hgo.rely ht
      have hlock : Guarantee M watched who t _ :=
        guarantee_lock htxn hfree (hto.grows ht.1.grows) hgo'.undecided
      refine ⟨hlock, Taken.held (hgo'.evolves hlock.1 ?_ fun _ _ h => h) ?_⟩
      · simp [verdict, World.get_create]
      · exact ⟨e, by rw [entryAt_lock hfree]; simp, htxn⟩
    · refine does_get (fun u => (quiet_refl u).guarantee) fun u hu => (?_ : Does ..) _
      have hgou := (hgo.rely ht).rely hu
      have htou := hto.grows (ht.1.grows.trans hu.1.grows)
      cases hslot : u.get (.log id (n + 1)) with
      | none => exact ih hgou htou
      | some b =>
        dsimp only
        cases hdec : decodeEntry b with
        | none => exact Taken.refused hgou
        | some held =>
          dsimp only
          have hentry : entryAt u id (n + 1) = some held := by simp [entryAt, hslot, hdec]
          by_cases hown : held.txn = who
          · rw [if_pos hown]
            exact Taken.held hgou ⟨held, hentry, hown⟩
          · rw [if_neg hown]
            refine Does.attempt ((reads_outcome held.txn u).runs.mono ?_)
            rintro r x ⟨⟨v, rfl, hthen, _⟩, hx⟩
            refine ⟨?_, by simp⟩
            rintro v' heq
            cases heq
            have hgox := hgou.rely hx
            have htox := htou.grows hx.1.grows
            -- once the holder is aborted its lock is cleared, and the slot tried again
            have hretry : ∀ y, Rely M watched who x y → verdict y held.txn = some false →
                Runs M watched who (Taken M watched who id)
                  ((deleteIfTxn (.log id (n + 1)) held.txn).attempt fun _ =>
                    takeSlot id who e (n + 1) nowMs ttlMs tries) y := by
              intro y hy hv
              refine Does.attempt ((reads_deleteIfTxn hv).runs.mono ?_)
              rintro r z ⟨_, hz⟩
              refine ⟨fun _ _ => ih ((hgox.rely hy).rely hz) ?_, fun _ _ t' ht' => ?_⟩
              · exact htox.grows (hy.1.grows.trans hz.1.grows)
              · exact ⟨((hgox.rely hy).rely hz).rely ht', by simp⟩
            cases v with
            | some committed =>
              cases committed with
              | true => exact Taken.refused hgox
              | false => exact hretry x (Std.Refl.refl x) (hthen false rfl)
            | none =>
              dsimp only
              split
              · exact Taken.refused hgox
              · refine Does.attempt ((reads_abortTxn held.txn x).runs.mono ?_)
                rintro r y ⟨hv, hy⟩
                refine ⟨?_, fun _ _ t' ht' => ⟨(hgox.rely hy).rely ht', by simp⟩⟩
                rintro won rfl
                cases won with
                | true => exact hretry y hy (hv rfl)
                | false => exact Taken.refused (hgox.rely hy)

theorem committedTo_zero (w : LogWorld ι τ β δ) (id : ι) : CommittedTo w id 0 :=
  ⟨[], rfl, by simp [CommittedRun]⟩

theorem runs_prewrite (id : ι) (e : LogEntry τ β δ) (expected nowMs ttlMs : Nat)
    {w : LogWorld ι τ β δ} (htxn : e.txn = who) (hgo : Going M watched who w) :
    Runs M watched who (Taken M watched who id)
      (prewrite M id who e expected nowMs ttlMs) w := by
  refine Does.attempt ((reads_committedSeq id 0 hgo.sound (committedTo_zero w id)).runs.mono ?_)
  rintro r t ⟨hseq, ht⟩
  refine ⟨?_, fun _ _ u hu => ⟨(hgo.rely ht).rely hu, by simp⟩⟩
  rintro seq rfl
  split_ifs with hne
  · exact Taken.refused (hgo.rely ht)
  · obtain rfl : seq = expected := by simpa using hne
    exact runs_takeSlot id e seq nowMs ttlMs 64 htxn (hgo.rely ht) (hseq seq rfl).1

theorem runs_note {n : Note ι τ β} {f : Unit → NotedTask ι τ β δ α}
    {Q : α → LogWorld ι τ β δ → Prop} {w : LogWorld ι τ β δ}
    (h : ∀ t, Rely M watched who w t →
      Guarantee M watched who t { t with notes := n :: t.notes } ∧
        Runs M watched who Q (f ()) { t with notes := n :: t.notes }) :
    Runs M watched who Q ((note n).bind f) w :=
  Does.call fun t ht _ _ _ => h t ht

theorem runs_now {f : Nat → NotedTask ι τ β δ α} {Q : α → LogWorld ι τ β δ → Prop}
    {w : LogWorld ι τ β δ} (h : ∀ t n, Rely M watched who w t → Runs M watched who Q (f n) t) :
    Runs M watched who Q (now.bind f) w :=
  Does.call fun t ht _ _ _ => ⟨(quiet_refl t).guarantee, h t _ ht⟩

theorem runs_ask {q : Query} {f : Bool → NotedTask ι τ β δ α}
    {Q : α → LogWorld ι τ β δ → Prop} {w : LogWorld ι τ β δ}
    (h : ∀ t b, Rely M watched who w t → Runs M watched who Q (f b) t) :
    Runs M watched who Q ((ask q).bind f) w :=
  Does.call fun t ht _ _ _ => ⟨(quiet_refl t).guarantee, h t _ ht⟩

/-- A note of a going boat about a slot it holds, or lost to an abort. -/
theorem Going.note {id : ι} {seq : Nat} {w : LogWorld ι τ β δ} (h : Going M watched who w)
    (hh : Holds w id seq who ∨ verdict w who = some false) :
    Guarantee M watched who w { w with notes := .prewritten who id seq :: w.notes } ∧
      Going M watched who { w with notes := .prewritten who id seq :: w.notes } := by
  have hnote : Guarantee M watched who w { w with notes := .prewritten who id seq :: w.notes } :=
    guarantee_note rfl (fun _ _ _ => h.undecided) nofun nofun
  refine ⟨hnote, hnote.1.sound h.sound, h.undecided, ?_, ?_⟩
  · exact fun hn => h.going ((List.mem_cons.mp hn).resolve_left nofun)
  · intro i s hn
    rcases List.mem_cons.mp hn with heq | hn
    · cases heq
      exact hh
    · exact h.placed i s hn

theorem reads_snapshotRegresses (Y : Yard β δ) (hY : Y.images = M) (id : ι)
    (p : LogPayload β δ) {w : LogWorld ι τ β δ} (hs : Sound M watched w) :
    Reads M watched who (fun _ _ => True) (snapshotRegresses Y id p) w := by
  subst hY
  cases p with
  | delta d => exact Does.ret fun _ _ => trivial
  | snapshot b =>
    refine Does.bind ((reads_foldCommitted id 0 hs (committedTo_zero w id)).mono ?_)
    intro r t _
    split <;> exact Does.ret fun _ _ => trivial

theorem runs_prewriteAll (Y : Yard β δ) (hY : Y.images = M) (born : Nat)
    (items : List (ShipItem ι β δ)) (done : List (ι × Nat)) {w : LogWorld ι τ β δ}
    (hgo : Going M watched who w) :
    Runs M watched who (fun _ t => Going M watched who t)
      (prewriteAll Y who born items done) w := by
  induction items generalizing done w with
  | nil => exact Does.ret fun _ ht => hgo.rely ht
  | cons item items ih =>
    refine Does.bind ((reads_snapshotRegresses Y hY _ _ hgo.sound).runs.mono ?_)
    rintro regressed t ⟨_, ht⟩
    have hgot := hgo.rely ht
    split
    · exact Does.ret fun _ hu => hgot.rely hu
    · have hprewrite : Runs M watched who (Taken M watched who item.object) _ t :=
        runs_prewrite item.object ⟨who, born, item.payload⟩ item.expectedSeq born Y.ttlMs rfl hgot
      rw [hY]
      refine Does.bind (hprewrite.mono ?_)
      rintro r u ⟨hgou, htaken⟩
      split
      · next seq =>
        refine runs_note fun x hx => ?_
        have hheld : Holds x item.object seq who ∨ verdict x who = some false := by
          rcases htaken seq rfl with hh | hf
          · exact hx.2.locked item.object seq hh
          · exact .inr (hx.1.grows.decided _ _ hf)
        obtain ⟨hnote, hgo'⟩ := (hgou.rely hx).note hheld
        exact ⟨hnote, ih _ hgo'⟩
      · exact Does.ret fun _ hx => hgou.rely hx
      · exact Does.ret fun _ hx => hgou.rely hx

/-- The commit switch: when it does not flip, the boat is aborted for good. -/
theorem runs_commitTxn {w : LogWorld ι τ β δ} (hgo : Going M watched who w) :
    Runs M watched who (fun r t => Sound M watched t ∧
      ∃ b, r = .ok b ∧ (b = false → verdict t who = some false)) (commitTxn who) w := by
  refine does_create (fun t => (quiet_refl t).guarantee) (fun t ht hfree hgap => ?_)
    fun t ht hkey => ?_
  · have hgot := hgo.rely ht
    have hnone : verdict t who = none := by simp [verdict, hfree]
    have hcommit : Guarantee M watched who t _ := guarantee_commit (fun _ id seq hn =>
      (hgot.placed id seq hn).resolve_right (by simp [hnone])) hgot.going hgap
    refine ⟨hcommit, Does.ret fun u hu => ?_⟩
    exact ⟨rely_sound _ u hu (hcommit.1.sound hgot.sound), true, rfl, fun hc => by cases hc⟩
  · refine Does.bind ((reads_committed who t).runs.mono ?_)
    rintro c u ⟨⟨_, hif⟩, hu⟩
    refine Does.ret fun x hx => ⟨?_, c, rfl, ?_⟩
    · exact rely_sound u x hx (rely_sound t u hu (rely_sound w t ht hgo.sound))
    · rintro rfl
      obtain ⟨b, hb⟩ := Option.ne_none_iff_exists'.mp hkey
      have hv : verdict t who = some (isCommitted b) := by simp [verdict, hb]
      cases hc : isCommitted b with
      | false =>
        rw [hc] at hv
        exact hx.1.grows.decided _ _ (hu.1.grows.decided _ _ hv)
      | true =>
        rw [hc] at hv
        exact absurd (hif hv) Bool.false_ne_true

/-- A boat that has given up: it never commits. -/
structure GivenUp (M : Images β δ) (watched : τ → List ι) (who : τ) (w : LogWorld ι τ β δ) :
    Prop where
  sound : Sound M watched w
  abandoned : Note.abandoned who ∈ w.notes

theorem GivenUp.rely {w w' : LogWorld ι τ β δ} (h : GivenUp M watched who w)
    (hw : Rely M watched who w w') : GivenUp M watched who w' :=
  ⟨hw.1.sound h.sound, hw.1.grows.remembered _ h.abandoned⟩

theorem GivenUp.evolves {w w' : LogWorld ι τ β δ} (h : GivenUp M watched who w)
    (hw : Evolves M watched w w') : GivenUp M watched who w' :=
  ⟨hw.sound h.sound, hw.grows.remembered _ h.abandoned⟩

/-- Everything the boat still does leaves it given up. -/
theorem GivenUp.runs {p : NotedTask ι τ β δ α} {w : LogWorld ι τ β δ}
    {Q : α → LogWorld ι τ β δ → Prop} (h : GivenUp M watched who w)
    (hp : Runs M watched who Q p w) :
    Runs M watched who (fun _ t => GivenUp M watched who t) p w :=
  (hp.frame (fun _ _ hr hk => hk.rely hr) (fun _ _ hg hk => hk.evolves hg.1) h).mono
    fun _ _ ht => ht.2

theorem runs_clearEntry (id : ι) (seq : Nat) {w : LogWorld ι τ β δ}
    (h : GivenUp M watched who w) :
    Runs M watched who (fun _ _ => True) (clearEntry id seq who) w := by
  refine Does.bind ((h.runs (reads_committed who w).runs).mono ?_)
  intro c t ht
  split_ifs
  · exact Does.ret fun _ _ => trivial
  · refine does_deleteIfTxn (fun t => (quiet_refl t).guarantee) fun u hu hheld => ?_
    have hup := ht.rely hu
    exact guarantee_unlock hheld (hup.sound.lost who hup.abandoned) hup.abandoned

theorem runs_clearAll (prewritten : List (ι × Nat)) {w : LogWorld ι τ β δ}
    (h : GivenUp M watched who w) :
    Runs M watched who (fun _ _ => True) (clearAll who prewritten) w := by
  induction prewritten generalizing w with
  | nil => exact Does.ret fun _ _ => trivial
  | cons slot rest ih =>
    obtain ⟨id, seq⟩ := slot
    exact Does.bind ((h.runs (runs_clearEntry id seq h)).mono fun _ _ ht => ih ht)

theorem reads_put_staging {txn : τ} {id : ι} {b : Blob τ β δ}
    {f : Except Error Unit → NotedTask ι τ β δ α} {Q : α → LogWorld ι τ β δ → Prop}
    {w : LogWorld ι τ β δ} (h : ∀ t, Reads M watched who Q (f (.ok ())) t) :
    Reads M watched who Q ((Store.put (.staging txn id) b).bind f) w :=
  Does.call fun t _ _ _ _ => ⟨quiet_put_staging t txn id b, h _⟩

theorem reads_stageAll (items : List (ShipItem ι β δ)) (w : LogWorld ι τ β δ) :
    Reads M watched who (fun _ _ => True) (stageAll who items) w := by
  induction items generalizing w with
  | nil => exact Does.ret fun _ _ => trivial
  | cons item items ih =>
    refine reads_put_staging fun t => Does.bind ((ih t).mono fun err u _ => ?_)
    exact Does.ret fun _ _ => trivial

theorem reads_unstageAll (items : List (ShipItem ι β δ)) (w : LogWorld ι τ β δ) :
    Reads M watched who (fun _ _ => True) (unstageAll who items) w := by
  induction items generalizing w with
  | nil => exact Does.ret fun _ _ => trivial
  | cons item items ih =>
    exact Does.call fun t _ _ _ _ => ⟨quiet_delete_staging t who item.object, ih _⟩

theorem runs_shipFailed (items : List (ShipItem ι β δ)) (inline : Bool)
    (prewritten : List (ι × Nat)) (err : ShipError ι) (rebased : Option ι)
    {w : LogWorld ι τ β δ} (hs : Sound M watched w) (hv : verdict w who ≠ some true) :
    Runs M watched who (fun _ _ => True)
      (shipFailed who items inline prewritten err rebased) w := by
  refine runs_note fun t ht => ?_
  have hvt : verdict t who ≠ some true := fun h => hv (ht.2.undecided h)
  have hnote : Guarantee M watched who t { t with notes := .abandoned who :: t.notes } :=
    guarantee_note rfl nofun (fun _ => hvt) nofun
  have hup : GivenUp M watched who { t with notes := .abandoned who :: t.notes } :=
    ⟨hnote.1.sound (rely_sound w t ht hs), List.mem_cons_self ..⟩
  refine ⟨hnote, Does.bind ((hup.runs (runs_clearAll prewritten hup)).mono fun _ u _ => ?_)⟩
  have hunstage : Runs M watched who (fun _ _ => True)
      (if inline then .ret () else unstageAll who items) u := by
    split_ifs
    · exact Does.ret fun _ _ => trivial
    · exact (reads_unstageAll items u).runs.mono fun _ _ _ => trivial
  refine Does.bind (hunstage.mono fun _ x _ => runs_note fun y _ => ⟨?_, ?_⟩)
  · exact guarantee_note rfl nofun nofun nofun
  · exact Does.ret fun _ _ => trivial

/-- A compaction publishes the image of a committed prefix. -/
theorem reads_compact (id : ι) (keep : Nat) {w : LogWorld ι τ β δ} (hs : Sound M watched w) :
    Reads M watched who (fun _ _ => True) (compact M id keep) w := by
  refine Does.attempt ((reads_foldCommitted id 0 hs (committedTo_zero w id)).since.mono ?_)
  rintro r t ⟨himg, ht⟩
  refine ⟨?_, fun _ _ _ _ => trivial⟩
  rintro ⟨image, seq⟩ rfl
  have himg' := (himg image seq rfl).1
  refine Does.attempt ((reads_readBase id (rely_sound w t ht hs)).since.mono ?_)
  rintro r u ⟨_, hu⟩
  refine ⟨?_, fun _ _ _ _ => trivial⟩
  rintro ⟨_, baseSeq⟩ rfl
  dsimp only
  split_ifs
  · exact Does.ret fun _ _ => trivial
  · refine does_create quiet_refl (fun x hx _ _ => ⟨quiet_base ?_, ?_⟩) fun x _ _ => ?_
    · exact himg'.grows (hu.1.grows.trans hx.1.grows)
    · exact Does.ret fun _ _ => trivial
    · exact Does.ret fun _ _ => trivial

theorem reads_compactAll (ids : List ι) {w : LogWorld ι τ β δ} (hs : Sound M watched w) :
    Reads M watched who (fun _ _ => True) (compactAll M ids) w := by
  induction ids generalizing w with
  | nil => exact Does.ret fun _ _ => trivial
  | cons id ids ih =>
    exact Does.bind ((reads_compact id logCompactKeep hs).since.mono fun _ t ht =>
      ih (rely_sound w t ht.2 hs))

theorem runs_shipped (Y : Yard β δ) (hY : Y.images = M) (objects : List ι)
    {w : LogWorld ι τ β δ} (hs : Sound M watched w) :
    Runs M watched who (fun _ _ => True) (shipped Y who objects) w := by
  refine runs_note fun t ht => ?_
  have hnote : Guarantee M watched who t { t with notes := .answered who none :: t.notes } :=
    guarantee_note rfl nofun nofun nofun
  refine ⟨hnote, runs_ask fun u held hu => ?_⟩
  have hsu := rely_sound _ u hu (hnote.1.sound (rely_sound w t ht hs))
  have hcompact : Runs M watched who (fun _ _ => True)
      (if held then compactAll Y.images objects else .ret ()) u := by
    split_ifs
    · rw [hY]
      exact (reads_compactAll objects hsu).runs.mono fun _ _ _ => trivial
    · exact Does.ret fun _ _ => trivial
  exact Does.bind (hcompact.mono fun _ _ _ => Does.ret fun _ _ => trivial)

theorem runs_shipStaged (Y : Yard β δ) (hY : Y.images = M) (items : List (ShipItem ι β δ))
    (inline : Bool) {w : LogWorld ι τ β δ} (hgo : Going M watched who w) :
    Runs M watched who (fun _ _ => True) (shipStaged Y who items inline) w := by
  refine runs_now fun t born ht => ?_
  refine Does.bind ((runs_prewriteAll Y hY _ _ [] (hgo.rely ht)).mono ?_)
  intro p u hgou
  split
  · exact runs_shipFailed items inline _ _ _ hgou.sound hgou.undecided
  · refine Does.bind ((runs_commitTxn hgou).mono ?_)
    rintro r x ⟨hs, b, rfl, hfalse⟩
    cases b with
    | true => exact runs_shipped Y hY _ hs
    | false => exact runs_shipFailed items inline _ _ _ hs (by simp [hfalse rfl])

/-- A boat keeps its guarantee, from the moment nothing is known of it. -/
theorem runs_shipTask (Y : Yard β δ) (hY : Y.images = M) (items : List (ShipItem ι β δ))
    {w : LogWorld ι τ β δ} (hgo : Going M watched who w) :
    Runs M watched who (fun _ _ => True) (shipTask Y who items) w := by
  unfold shipTask
  dsimp only
  generalize decide ((items.map fun item => Y.images.size item.payload).sum ≤ inlineMaxBytes)
    = inline
  have hstage : Runs M watched who (fun _ t => Going M watched who t)
      (if inline then .ret none else stageAll who items) w := by
    split_ifs
    · exact Does.ret fun _ ht => hgo.rely ht
    · exact (reads_stageAll items w).runs.mono fun _ _ ht => hgo.rely ht.2
  refine Does.bind (hstage.mono ?_)
  intro staged t hgot
  split
  · exact runs_shipFailed items inline _ _ _ hgot.sound hgot.undecided
  · have hgate : Runs M watched who (fun _ u => Going M watched who u) gate t := by
      refine runs_ask fun u held hu => ?_
      split_ifs
      · exact runs_ask fun x fenced hx => Does.ret fun _ hy =>
          ((hgot.rely hu).rely hx).rely hy
      · exact Does.ret fun _ hx => (hgot.rely hu).rely hx
    refine Does.bind (hgate.mono ?_)
    intro err u hgou
    split
    · exact runs_shipFailed items inline _ _ _ hgou.sound hgou.undecided
    · exact runs_shipStaged Y hY items inline hgou

/-- The fold of a prefix saw every entry that was committed before. -/
theorem ImageOf.early {w w' : LogWorld ι τ β δ} (h : Grows w w') {id : ι} {img : β} {n s : Nat}
    {txn : τ} (himg : ImageOf M w id img n) (hh : Holds w' id s txn) (hpos : 0 < s) (hle : s ≤ n) :
    verdict w txn = some true := by
  obtain ⟨e, he, hv⟩ := himg.committedTo.entry hpos hle
  obtain ⟨e', he', rfl⟩ := hh
  rw [h.settled id s e he hv] at he'
  cases he'
  exact hv

theorem Sound.committedTo {w : LogWorld ι τ β δ} (hs : Sound M watched w) {id : ι} {s : Nat}
    {txn : τ} (hh : Holds w id s txn) (hv : verdict w txn = some true) : CommittedTo w id s := by
  obtain ⟨e, he, rfl⟩ := hh
  obtain ⟨n, rfl, ps, rfl, hps⟩ := hs.stacked id s e he
  exact ⟨ps ++ [e.payload], by simp, hps.snoc he hv⟩

/-- A durable read with `rest` still to fold. What is already folded is a cut, and includes every
committed transaction that also writes to an object still to be folded. -/
structure Reading (M : Images β δ) (watched : τ → List ι) (who : τ) (rest : List ι)
    (conns : List (ι × β × Nat)) (w : LogWorld ι τ β δ) : Prop where
  sound : Sound M watched w
  image : ∀ a x, conns.lookup a = some x → ImageOf M w a x.1 x.2
  started : ∀ a x, conns.lookup a = some x → a ∉ rest → Folding w who a
  pending : ∀ b ∈ rest, ¬ Folded w who b
  whole : ∀ a ∈ watched who, ∀ b ∈ watched who, a ∉ rest → b ∉ rest → ∀ x y,
    conns.lookup a = some x → conns.lookup b = some y → ∀ txn s t, verdict w txn = some true →
      Holds w a s txn → Holds w b t txn → s ≤ x.2 → t ≤ y.2
  included : ∀ a ∈ watched who, ∀ b ∈ watched who, a ∉ rest → b ∈ rest → ∀ x,
    conns.lookup a = some x → ∀ txn s t, verdict w txn = some true →
      Holds w a s txn → Holds w b t txn → s ≤ x.2

theorem Folding.rely {w w' : LogWorld ι τ β δ} (hw : Rely M watched who w w') {a : ι}
    (h : Folding w who a) : Folding w' who a := by
  obtain ⟨rest, hn, hr⟩ := h
  exact ⟨rest, hw.1.grows.remembered _ hn, hr⟩

theorem Folded.rely {w w' : LogWorld ι τ β δ} (hw : Rely M watched who w w') {b : ι}
    (h : Folded w' who b) : Folded w who b := by
  obtain ⟨rest, hn, hr⟩ := h
  exact ⟨rest, (hw.2.noted (.folded who b rest) rfl).mp hn, hr⟩

theorem Reading.rely {rest : List ι} {conns : List (ι × β × Nat)} {w w' : LogWorld ι τ β δ}
    (h : Reading M watched who rest conns w) (hw : Rely M watched who w w') :
    Reading M watched who rest conns w' where
  sound := rely_sound w w' hw h.sound
  image a x hx := (h.image a x hx).grows hw.1.grows
  started a x hx ha := (h.started a x hx ha).rely hw
  pending b hb hfolded := h.pending b hb (hfolded.rely hw)
  whole a ha b hb har hbr x y hx hy txn s t hv hs ht hle := by
    have hpos := hs.pos (rely_sound w w' hw h.sound)
    have hold := (h.image a x hx).early hw.1.grows hs hpos hle
    exact h.whole a ha b hb har hbr x y hx hy txn s t hold (hw.1.grows.holds hs hold)
      (hw.1.grows.holds ht hold) hle
  included a ha b hb har hbr x hx txn s t hv hs ht := by
    have hne : a ≠ b := by
      rintro rfl
      exact har hbr
    have hold := hw.2.whole a ha b hb hne txn s t hv hs ht (h.started a x hx har)
      (h.pending b hbr)
    exact h.included a ha b hb har hbr x hx txn s t hold (hw.1.grows.holds hs hold)
      (hw.1.grows.holds ht hold)

/-- Once nothing is left to fold, the images are a consistent cut. -/
theorem Reading.cut {conns : List (ι × β × Nat)} {w : LogWorld ι τ β δ}
    (h : Reading M watched who [] conns w) : Cut M (watched who) w conns where
  image id img n hl := h.image id (img, n) hl
  whole a ha b hb x y hx hy txn s t hv hs ht :=
    ⟨h.whole a ha b hb (by simp) (by simp) x y hx hy txn s t hv hs ht,
      h.whole b hb a ha (by simp) (by simp) y x hy hx txn t s hv ht hs⟩

/-- A fold covers everything that was committed when it began. -/
theorem reads_foldCommitted_all (id : ι) {w : LogWorld ι τ β δ} (hs : Sound M watched w) :
    Reads M watched who (fun r t => ∀ img n, r = .ok (img, n) →
      ImageOf M t id img n ∧ ∀ m, CommittedTo w id m → m ≤ n) (foldCommitted M id) w := by
  have : Nonempty { m : Nat // CommittedTo w id m } := ⟨0, committedTo_zero w id⟩
  have hall : Reads M watched who _ (foldCommitted M id) w :=
    Does.forall fun m : { m : Nat // CommittedTo w id m } => reads_foldCommitted id m.1 hs m.2
  refine hall.mono fun r t h img n hr => ⟨(h ⟨0, committedTo_zero w id⟩ img n hr).1, ?_⟩
  exact fun m hm => (h ⟨m, hm⟩ img n hr).2

/-- One more fold, which began at `w` and ended at `w'`. -/
theorem Reading.fold {id : ι} {rest : List ι} {conns : List (ι × β × Nat)}
    {w w' : LogWorld ι τ β δ} (h : Reading M watched who (id :: rest) conns w)
    (hfolding : id ∉ rest → Folding w who id) (hw : Rely M watched who w w') {img : β} {n : Nat}
    (himg : ImageOf M w' id img n) (hbound : ∀ m, CommittedTo w id m → m ≤ n) :
    Reading M watched who rest ((id, img, n) :: conns) w' := by
  have hsound := rely_sound w w' hw h.sound
  have hlookup : ∀ a, List.lookup a ((id, img, n) :: conns) =
      if a = id then some (img, n) else conns.lookup a := by
    intro a
    by_cases ha : a = id
    · simp [ha]
    · have hne : (a == id) = false := by simpa using ha
      simp [List.lookup_cons, hne, ha]
  -- what committed before the fold began is in it
  have hseen : ∀ txn s, verdict w txn = some true → Holds w id s txn → s ≤ n := fun txn s hv hs =>
    hbound s (h.sound.committedTo hs hv)
  have h' := h.rely hw
  refine ⟨hsound, ?_, ?_, fun b hb => h'.pending b (List.mem_cons_of_mem _ hb), ?_, ?_⟩
  · intro a x hx
    rw [hlookup] at hx
    split at hx
    · next ha =>
      cases hx
      exact ha ▸ himg
    · exact h'.image a x hx
  · intro a x hx har
    rw [hlookup] at hx
    split at hx
    · next ha =>
      subst ha
      exact (hfolding har).rely hw
    · next ha => exact h'.started a x hx (by simp [ha, har])
  · intro a ha b hb har hbr x y hx hy txn s t hv hs ht hle
    rw [hlookup] at hx hy
    split at hx
    · next haid =>
      subst haid
      cases hx
      split at hy
      · next hbid =>
        subst hbid
        cases hy
        rwa [hsound.single b t s txn ht hs]
      · next hbid =>
        have hstart := h.started b y hy (by simp [hbid, hbr])
        have hold := hw.2.whole b hb a ha hbid txn t s hv ht hs hstart
          (h.pending a (List.mem_cons_self ..))
        exact h.included b hb a ha (by simp [hbid, hbr]) (List.mem_cons_self ..) y hy txn t s hold
          (hw.1.grows.holds ht hold) (hw.1.grows.holds hs hold)
    · next haid =>
      split at hy
      · next hbid =>
        subst hbid
        cases hy
        have hold := (h'.image a x hx).early (grows_refl w') hs (hs.pos hsound) hle
        have hstart := h.started a x hx (by simp [haid, har])
        have hearly := hw.2.whole a ha b hb haid txn s t hold hs ht hstart
          (h.pending b (List.mem_cons_self ..))
        exact hseen txn t hearly (hw.1.grows.holds ht hearly)
      · next hbid =>
        exact h'.whole a ha b hb (by simp [haid, har]) (by simp [hbid, hbr]) x y hx hy txn s t hv
          hs ht hle
  · intro a ha b hb har hbr x hx txn s t hv hs ht
    rw [hlookup] at hx
    have hne : a ≠ b := by
      rintro rfl
      exact har hbr
    split at hx
    · next haid =>
      subst haid
      cases hx
      have hold := hw.2.whole a ha b hb hne txn s t hv hs ht (hfolding har)
        (h.pending b (List.mem_cons_of_mem _ hbr))
      exact hseen txn s hold (hw.1.grows.holds hs hold)
    · next haid =>
      exact h'.included a ha b hb (by simp [haid, har]) (List.mem_cons_of_mem _ hbr) x hx txn s t
        hv hs ht

/-- The reader's own notes change nothing but what it has started and ended. -/
theorem Reading.note {rest : List ι} {conns : List (ι × β × Nat)} {w : LogWorld ι τ β δ}
    (h : Reading M watched who rest conns w) {n : Note ι τ β}
    (hnote : Guarantee M watched who w { w with notes := n :: w.notes })
    (hn : ∀ b ∈ rest, ∀ rest', n = .folded who b rest' → b ∈ rest') :
    Reading M watched who rest conns { w with notes := n :: w.notes } where
  sound := hnote.1.sound h.sound
  image := h.image
  started a x hx ha := by
    obtain ⟨rest', hm, hr⟩ := h.started a x hx ha
    exact ⟨rest', List.mem_cons_of_mem _ hm, hr⟩
  pending b hb := by
    rintro ⟨rest', hm, hr⟩
    rcases List.mem_cons.mp hm with heq | hm
    · exact hr (hn b hb rest' heq.symm)
    · exact h.pending b hb ⟨rest', hm, hr⟩
  whole := h.whole
  included := h.included

theorem runs_durableFolds (ids : List ι) (conns : List (ι × β × Nat)) {w : LogWorld ι τ β δ}
    (h : Reading M watched who ids conns w) :
    Runs M watched who (fun r t => ∀ cs, r = .ok cs → Reading M watched who [] cs t)
      (durableFolds M who ids conns) w := by
  induction ids generalizing conns w with
  | nil =>
    refine Does.ret fun t ht cs hcs => ?_
    cases hcs
    exact h.rely ht
  | cons id rest ih =>
    refine runs_note fun t ht => ?_
    have hnote : Guarantee M watched who t { t with notes := .folding who id rest :: t.notes } :=
      guarantee_note rfl nofun nofun nofun
    have hstart := (h.rely ht).note hnote (fun _ _ _ => nofun)
    refine ⟨hnote, ?_⟩
    refine Does.attempt ((reads_foldCommitted_all id hstart.sound).runs.mono ?_)
    rintro r u ⟨hfold, hu⟩
    refine ⟨?_, by simp⟩
    rintro ⟨image, seq⟩ rfl
    obtain ⟨himg, hbound⟩ := hfold image seq rfl
    have hread := hstart.fold (fun hr => ⟨rest, List.mem_cons_self .., hr⟩) hu himg hbound
    refine runs_note fun x hx => ?_
    have hend : Guarantee M watched who x { x with notes := .folded who id rest :: x.notes } :=
      guarantee_note rfl nofun nofun nofun
    refine ⟨hend, ih _ ((hread.rely hx).note hend ?_)⟩
    rintro b hb rest' heq
    cases heq
    exact hb

/-- A durable read keeps its guarantee, from the moment it has not started. -/
theorem runs_durableRead (ids : List ι) {w : LogWorld ι τ β δ} (hs : Sound M watched w)
    (hfresh : ∀ n ∈ w.notes, n.by ≠ who) :
    Runs M watched who (fun _ _ => True) (durableRead M who ids) w := by
  have hstart : Reading M watched who ids [] w := by
    refine ⟨hs, by simp, by simp, ?_, by simp, by simp⟩
    rintro b _ ⟨rest, hn, _⟩
    exact hfresh _ hn rfl
  refine Does.attempt ((runs_durableFolds ids [] hstart).mono ?_)
  intro r t hread
  refine ⟨?_, by simp⟩
  rintro conns rfl
  refine runs_note fun u hu => ⟨guarantee_note rfl (fun _ _ heq => by cases heq)
    (fun heq => by cases heq) ?_, Does.ret fun _ _ => trivial⟩
  rintro cs heq
  cases heq
  exact ((hread conns rfl).rely hu).cut

/-- Every job keeps its guarantee from the empty store on. -/
theorem runs_job (Y : Yard β δ) (watched : τ → List ι) (who : τ) (job : Job ι β δ) :
    Runs Y.images watched who (fun _ _ => True) (job.prog Y who) {} := by
  have hs := sound_empty (ι := ι) (τ := τ) Y.images watched
  cases job with
  | ship items =>
    have hgo : Going Y.images watched who ({} : LogWorld ι τ β δ) :=
      ⟨hs, nofun, nofun, fun _ _ h => by cases h⟩
    exact Does.bind ((runs_shipTask Y rfl items hgo).mono fun _ _ _ => Does.ret fun _ _ => trivial)
  | compact id keep =>
    exact Does.bind ((reads_compact id keep hs).runs.mono fun _ _ _ =>
      Does.ret fun _ _ => trivial)
  | read ids =>
    exact Does.bind ((runs_durableRead ids hs nofun).mono fun _ _ _ =>
      Does.ret fun _ _ => trivial)

/-- The conditions, as conditions on a step of the run. -/
def SteadyStep (watched : τ → List ι) (c : JobConfig ι τ β δ) (who : τ) (_ : Env) : Prop :=
  match (c.procs who).prog with
  | .call o _ => DeletesWhatItRead (c.procs who).last o c.shared ∧
      CommitsBetweenReads watched o c.shared
  | .ret _ => True

theorem SteadyStep.steady (c : JobConfig ι τ β δ) (who : τ) (e : Env)
    (o : NodeOp (Key ι τ) (Blob τ β δ) (Note ι τ β))
    (k : NodeOp.Answer o → NotedTask ι τ β δ Unit)
    (h : SteadyStep watched c who e) (hp : (c.procs who).prog = .call o k) :
    Steady watched e (c.procs who).last o c.shared := by
  rw [SteadyStep, hp] at h
  exact h

end Specs

/-- Every task meets its contract in every run whose steps meet the conditions. -/
theorem contracts_reachable (Y : Yard β δ) (watched : τ → List ι) (jobs : τ → Job ι β δ)
    {c : JobConfig ι τ β δ} (h : Reach reliable (SteadyStep watched) (startJobs Y jobs) c) :
    Contracts reliable (Steady watched) (Rely Y.images watched) (Guarantee Y.images watched)
      (fun _ _ _ => True) c :=
  Contracts.reach (fun who => runs_job Y watched who (jobs who) none)
    (fun _ _ hne _ _ hg => hg.rely hne) SteadyStep.steady h

/-- Between any two configurations of such a run the log only grows. -/
theorem grows_reachable (Y : Yard β δ) (watched : τ → List ι) (jobs : τ → Job ι β δ)
    {c d : JobConfig ι τ β δ} (hc : Reach reliable (SteadyStep watched) (startJobs Y jobs) c)
    (hd : Reach reliable (SteadyStep watched) c d) : Grows c.shared d.shared :=
  (contracts_reachable Y watched jobs hc).invariant (fun _ _ hne _ _ hg => hg.rely hne)
    SteadyStep.steady (fun _ _ _ hg h => h.trans hg.1.grows) (grows_refl _) hd

/-- The log stays sound in every such run. -/
theorem sound_reachable (Y : Yard β δ) (watched : τ → List ι) (jobs : τ → Job ι β δ)
    {c : JobConfig ι τ β δ} (h : Reach reliable (SteadyStep watched) (startJobs Y jobs) c) :
    Sound Y.images watched c.shared :=
  (contracts_reachable Y watched jobs .refl).invariant (fun _ _ hne _ _ hg => hg.rely hne)
    SteadyStep.steady (fun _ _ _ hg => hg.1.sound) (sound_empty _ _) h

end Fafo
