import Mathlib.Algebra.Order.BigOperators.Group.List
import Fafo.DiskGovernor
import Fafo.Library.Words

/-! The disk ledger in machine words: how long it is governed as it is without overflow. -/
namespace Fafo.DiskLedger

open Words

variable {π : Type} [DecidableEq π]

def upsertWords (build : Build) (path : π) (bytes : Nat) (state : FileState) (worker : Nat)
    (l : DiskLedger π) : Option (DiskLedger π) :=
  (add build l.seq 1).bind fun seq =>
  (match l.files.lookup path with
    | some prev => sub build l.used prev.bytes
    | none => some l.used).bind fun used =>
  (add build used bytes).map fun used =>
    { l with seq, used, files := l.files.insert path ⟨bytes, state, worker, seq⟩ }

def removeWords (build : Build) (path : π) (l : DiskLedger π) : Option (DiskLedger π) :=
  match l.files.lookup path with
  | some e =>
    (sub build l.used e.bytes).map fun used => { l with used, files := l.files.erase path }
  | none => some l

def setCacheWords (build : Build) (path : π) (len : Option Nat) (worker : Nat)
    (l : DiskLedger π) : Option (DiskLedger π) :=
  match len with
  | some bytes => l.upsertWords build path bytes .cache worker
  | none => l.removeWords build path

def touchWords (build : Build) (path : π) (bytes : Nat) (l : DiskLedger π) :
    Option (DiskLedger π) :=
  (add build l.seq 1).bind fun seq =>
  match l.files.lookup path with
  | some e =>
    (sub build l.used e.bytes).bind fun used => (add build used bytes).map fun used =>
      { l with seq, used, files := l.files.insert path { e with bytes, touched := seq } }
  | none => some { l with seq }

/-- The deletion loop, for at most so many rounds: what is left, and the bytes deleted. -/
def sweepWords (build : Build) : Nat → Nat → DiskLedger π → Option (DiskLedger π × Nat)
  | 0, deleted, l => some (l, deleted)
  | rounds + 1, deleted, l =>
    if l.used ≤ l.budget then some (l, deleted)
    else
      match l.victim with
      | none => some (l, deleted)
      | some f =>
        (l.removeWords build f.1).bind fun after =>
        (add build deleted f.2.bytes).bind fun deleted => after.sweepWords build rounds deleted

/-- A worker's live files one by one. -/
def tallyWords (build : Build) (files : List (Σ _ : π, DiskEntry)) :
    Option (AList fun _ : Nat => Nat) :=
  files.foldlM (fun m f =>
    (add build ((m.lookup f.2.worker).getD 0) f.2.bytes).map (m.insert f.2.worker ·)) ∅

def enforceWords (build : Build) (rounds : Nat) (l : DiskLedger π) :
    Option (DiskLedger π × Enforcement) :=
  (l.sweepWords build rounds 0).bind fun (after, deleted) =>
  if after.used ≤ after.budget then some (after, ⟨deleted, none⟩)
  else
    (tallyWords build (after.files.entries.filter fun f => f.2.state = .live)).map fun live =>
      (after, ⟨deleted, Tally.heaviest live⟩)

/-- `none` is a panic. -/
def callWords (build : Build) (l : DiskLedger π) : DiskCall π → Option (DiskLedger π)
  | .setLive path bytes worker => l.upsertWords build path bytes .live worker
  | .setCache path len worker => l.setCacheWords build path len worker
  | .touch path bytes => l.touchWords build path bytes
  | .remove path => l.removeWords build path
  | .enforce => (l.enforceWords build l.files.entries.length).map Prod.fst

/-- What the tracked files but this one take up. -/
def others (l : DiskLedger π) (path : π) : Nat :=
  Tally.total (fun _ e => e.bytes) (l.files.erase path)

/-- The bytes that the call registers are a word together with what the other files take up. -/
def Fits (l : DiskLedger π) : DiskCall π → Prop
  | .setLive path bytes _ => l.others path + bytes < size
  | .setCache path len _ => ∀ bytes, len = some bytes → l.others path + bytes < size
  | .touch path bytes => (l.files.lookup path).isSome → l.others path + bytes < size
  | .remove _ | .enforce => True

/-- The runs whose calls are good. A hash map may list its entries in any order. -/
inductive RanWords (build : Build) (budget : Nat) (good : DiskLedger π → DiskCall π → Prop) :
    List (DiskCall π) → Option (DiskLedger π) → Prop
  | new : RanWords build budget good [] (some (new budget))
  | call {calls : List (DiskCall π)} {l : DiskLedger π}
      (h : RanWords build budget good calls (some l)) (c : DiskCall π) (hgood : good l c) :
      RanWords build budget good (c :: calls) (l.callWords build c)
  | rehash {calls : List (DiskCall π)} {l : DiskLedger π}
      (h : RanWords build budget good calls (some l)) (files : AList fun _ : π => DiskEntry)
      (hperm : files.entries.Perm l.files.entries) :
      RanWords build budget good calls (some { l with files })

/-- The ledger is governed, and what enforcement does in words is what it does in numbers. -/
structure GovernedWords (build : Build) (calls : List (DiskCall π)) (l : DiskLedger π) : Prop
    extends Governed calls l where
  enforced : ∀ rounds, l.files.entries.length ≤ rounds →
    l.enforceWords build rounds = some l.enforce

variable {build : Build} {budget : Nat} {calls : List (DiskCall π)} {c : DiskCall π}
  {l l' : DiskLedger π} {path : π}

theorem Accounted.others_eq (h : l.Accounted) {e : DiskEntry}
    (he : l.files.lookup path = some e) : l.used - e.bytes = l.others path := by
  have herase := Tally.total_erase (f := fun _ e => DiskEntry.bytes e) he
  unfold Accounted total at h
  unfold others
  omega

theorem Accounted.others_of_none (h : l.Accounted) (he : l.files.lookup path = none) :
    l.used = l.others path := by
  rw [others, Tally.erase_of_none he]
  exact h

/-- The subtraction is exact, and the word for the new sum is what is used. -/
theorem Accounted.upsertWords (h : l.Accounted) (hseq : l.seq + 1 < size) (bytes : Nat)
    (state : FileState) (worker : Nat) :
    l.upsertWords build path bytes state worker = (fit build (l.others path + bytes)).map
      fun used => { l.upsert path bytes state worker with used } := by
  rw [DiskLedger.upsertWords, add_of_lt hseq, Option.bind_some]
  cases he : l.files.lookup path with
  | none =>
    rw [Option.bind_some, h.others_of_none he]
    rfl
  | some e =>
    dsimp only
    rw [sub_of_le (h.le_used he), Option.bind_some, h.others_eq he]
    rfl

theorem Accounted.touchWords (h : l.Accounted) (hseq : l.seq + 1 < size) (bytes : Nat)
    (hpath : (l.files.lookup path).isSome) :
    l.touchWords build path bytes = (fit build (l.others path + bytes)).map
      fun used => { l.touch path bytes with used } := by
  obtain ⟨e, he⟩ := Option.isSome_iff_exists.mp hpath
  rw [DiskLedger.touchWords, add_of_lt hseq, Option.bind_some, he]
  dsimp only
  rw [sub_of_le (h.le_used he), Option.bind_some, h.others_eq he, DiskLedger.touch]
  simp only [he]
  rfl

theorem Accounted.removeWords (h : l.Accounted) (path : π) :
    l.removeWords build path = some (l.remove path) := by
  unfold DiskLedger.removeWords DiskLedger.remove
  cases he : l.files.lookup path with
  | none => rfl
  | some e =>
    dsimp only
    rw [sub_of_le (h.le_used he)]
    rfl

theorem used_upsert (h : l.Accounted) (bytes : Nat) (state : FileState) (worker : Nat) :
    (l.upsert path bytes state worker).used = l.others path + bytes := by
  unfold DiskLedger.upsert
  cases he : l.files.lookup path with
  | none => exact congrArg (· + bytes) (h.others_of_none he)
  | some e => exact congrArg (· + bytes) (h.others_eq he)

theorem used_touch (h : l.Accounted) (bytes : Nat) (hpath : (l.files.lookup path).isSome) :
    (l.touch path bytes).used = l.others path + bytes := by
  obtain ⟨e, he⟩ := Option.isSome_iff_exists.mp hpath
  unfold DiskLedger.touch
  simp only [he]
  rw [h.others_eq he]

/-- What is left and what was deleted come to what was used. -/
theorem Accounted.sweep_used (h : l.Accounted) (rounds : Nat) :
    (l.sweep rounds).1.used + ((l.sweep rounds).2.map fun f => f.2.bytes).sum = l.used := by
  induction rounds generalizing l with
  | zero => rfl
  | succ rounds ih =>
    rw [sweep]
    split_ifs
    · rfl
    cases hvictim : l.victim with
    | none => rfl
    | some f =>
      have hf := (victim_spec hvictim).1
      have hrest := ih (h.remove f.1)
      have hused : (l.remove f.1).used = l.used - f.2.bytes := by
        unfold DiskLedger.remove
        rw [hf]
      have hle := h.le_used hf
      dsimp only
      rw [List.map_cons, List.sum_cons]
      omega

theorem Accounted.sweepWords (h : l.Accounted) (rounds : Nat) {deleted : Nat}
    (hword : deleted + l.used < size) :
    l.sweepWords build rounds deleted = some ((l.sweep rounds).1,
      deleted + ((l.sweep rounds).2.map fun f => f.2.bytes).sum) := by
  induction rounds generalizing l deleted with
  | zero => rfl
  | succ rounds ih =>
    rw [DiskLedger.sweepWords, sweep]
    split_ifs
    · rfl
    cases hvictim : l.victim with
    | none => rfl
    | some f =>
      have hf := (victim_spec hvictim).1
      have hle := h.le_used hf
      have hused : (l.remove f.1).used = l.used - f.2.bytes := by
        unfold DiskLedger.remove
        rw [hf]
      dsimp only
      rw [h.removeWords, Option.bind_some, add_of_lt (by omega), Option.bind_some,
        ih (h.remove f.1) (by omega), List.map_cons, List.sum_cons, Nat.add_assoc]

omit [DecidableEq π] in
/-- No worker's sum is more than all the files together. -/
theorem tallyWords_eq {files : List (Σ _ : π, DiskEntry)}
    (hword : (files.map fun f => f.2.bytes).sum < size) :
    tallyWords build files =
      some (Tally.byKey (fun f => f.2.worker) (fun f => f.2.bytes) files) := by
  suffices hfold : ∀ m : AList fun _ : Nat => Nat,
      (∀ worker, (m.lookup worker).getD 0 + (files.map fun f => f.2.bytes).sum < size) →
      files.foldlM (fun m f =>
        (add build ((m.lookup f.2.worker).getD 0) f.2.bytes).map (m.insert f.2.worker ·)) m =
      some (files.foldl (fun m f =>
        m.insert f.2.worker ((m.lookup f.2.worker).getD 0 + f.2.bytes)) m) by
    refine hfold ∅ fun worker => ?_
    rw [AList.lookup_empty, Option.getD_none]
    omega
  clear hword
  induction files with
  | nil => exact fun _ _ => rfl
  | cons f files ih =>
    intro m hm
    have hf := hm f.2.worker
    rw [List.map_cons, List.sum_cons] at hf
    rw [List.foldlM_cons, add_of_lt (by omega), List.foldl_cons]
    refine ih _ fun worker => ?_
    have hworker := hm worker
    rw [List.map_cons, List.sum_cons] at hworker
    by_cases heq : worker = f.2.worker
    · rw [heq, AList.lookup_insert, Option.getD_some]
      omega
    · rw [AList.lookup_insert_ne heq]
      omega

theorem Accounted.enforceWords (h : l.Accounted) (hword : l.used < size) {rounds : Nat}
    (hrounds : l.files.entries.length ≤ rounds) :
    l.enforceWords build rounds = some l.enforce := by
  have hsum := h.sweep_used rounds
  have haccounted : (l.sweep rounds).1.Accounted := by
    rw [(sweep_swept rounds l).removed]
    exact h.removeAll _
  have hlive : (((l.sweep rounds).1.files.entries.filter fun f => f.2.state = .live).map
      fun f => f.2.bytes).sum ≤ (l.sweep rounds).1.used := by
    rw [haccounted]
    exact (List.filter_sublist.map _).sum_le_sum fun _ _ => Nat.zero_le _
  rw [DiskLedger.enforceWords, h.sweepWords rounds (by omega), Option.bind_some]
  dsimp only
  rw [Nat.zero_add, sweep_rounds hrounds]
  rw [sweep_rounds hrounds] at hlive hsum
  unfold enforce
  dsimp only
  split_ifs
  · rfl
  · rw [tallyWords_eq (by omega)]
    rfl

/-- A call that fits is as it is without overflow. -/
theorem Accounted.callWords (h : l.Accounted) (hword : l.used < size) (hseq : l.seq + 1 < size)
    (hfits : l.Fits c) : l.callWords build c = some (l.call c) ∧ (l.call c).used < size := by
  have hupsert : ∀ path bytes state worker, l.others path + bytes < size →
      l.upsertWords build path bytes state worker = some (l.upsert path bytes state worker) ∧
        (l.upsert path bytes state worker).used < size := by
    intro path bytes state worker hlt
    rw [h.upsertWords hseq, fit_of_lt hlt, used_upsert h]
    refine ⟨?_, hlt⟩
    rw [Option.map_some, ← used_upsert h]
  have hremove : ∀ path, l.removeWords build path = some (l.remove path) ∧
      (l.remove path).used < size := by
    intro path
    refine ⟨h.removeWords path, ?_⟩
    unfold DiskLedger.remove
    split
    · exact Nat.lt_of_le_of_lt (Nat.sub_le ..) hword
    · exact hword
  cases c with
  | setLive path bytes worker => exact hupsert path bytes .live worker hfits
  | setCache path len worker =>
    cases len with
    | none => exact hremove path
    | some bytes => exact hupsert path bytes .cache worker (hfits bytes rfl)
  | touch path bytes =>
    by_cases hpath : (l.files.lookup path).isSome
    · have hlt := hfits hpath
      change l.touchWords build path bytes = _ ∧ (l.touch path bytes).used < size
      rw [h.touchWords hseq bytes hpath, fit_of_lt hlt, used_touch h bytes hpath]
      refine ⟨?_, hlt⟩
      rw [Option.map_some, ← used_touch h bytes hpath]
      rfl
    · have hnone := Option.not_isSome_iff_eq_none.mp hpath
      refine ⟨?_, ?_⟩
      · change l.touchWords build path bytes = some (l.touch path bytes)
        unfold DiskLedger.touchWords DiskLedger.touch
        rw [add_of_lt hseq]
        simp [hnone]
      · change (l.touch path bytes).used < size
        unfold DiskLedger.touch
        simpa [hnone] using hword
  | remove path => exact hremove path
  | enforce =>
    refine ⟨?_, ?_⟩
    · change (l.enforceWords build _).map Prod.fst = _
      rw [h.enforceWords hword (Nat.le_refl _)]
      rfl
    · have hsum := h.sweep_used l.files.entries.length
      change l.swept.1.used < size
      unfold swept
      omega

/-- A call that does not fit panics, or leaves a sum that is not what the files take up. -/
theorem Accounted.not_fits (h : l.Accounted) (hseq : l.seq + 1 < size) (hfits : ¬ l.Fits c)
    (hcall : l.callWords build c = some l') : l'.used ≠ l'.total := by
  have hupsert : ∀ path bytes state worker, ¬ l.others path + bytes < size →
      l.upsertWords build path bytes state worker = some l' → l'.used ≠ l'.total := by
    intro path bytes state worker hlt hl'
    rw [h.upsertWords hseq] at hl'
    obtain ⟨used, hused, rfl⟩ := Option.map_eq_some_iff.mp hl'
    have htotal : (l.upsert path bytes state worker).total = l.others path + bytes :=
      (h.upsert path bytes state worker).symm.trans (used_upsert h bytes state worker)
    have hless := fit_lt hused
    change used ≠ (l.upsert path bytes state worker).total
    omega
  cases c with
  | setLive path bytes worker => exact hupsert path bytes .live worker hfits hcall
  | setCache path len worker =>
    cases len with
    | none => exact absurd (fun _ h => nomatch h) hfits
    | some bytes =>
      refine hupsert path bytes .cache worker (fun hlt => hfits ?_) hcall
      rintro _ ⟨⟩
      exact hlt
  | touch path bytes =>
    obtain ⟨hpath, hlt⟩ := Classical.not_imp.mp hfits
    change l.touchWords build path bytes = some l' at hcall
    rw [h.touchWords hseq bytes hpath] at hcall
    obtain ⟨used, hused, rfl⟩ := Option.map_eq_some_iff.mp hcall
    have htotal : (l.touch path bytes).total = l.others path + bytes :=
      (h.touch path bytes).symm.trans (used_touch h bytes hpath)
    have hless := fit_lt hused
    change used ≠ (l.touch path bytes).total
    omega
  | remove path => exact absurd trivial hfits
  | enforce => exact absurd trivial hfits

theorem sweep_seq (rounds : Nat) (l : DiskLedger π) : (l.sweep rounds).1.seq = l.seq := by
  induction rounds generalizing l with
  | zero => rfl
  | succ rounds ih =>
    rw [sweep]
    split_ifs
    · rfl
    cases l.victim with
    | none => rfl
    | some f => exact (ih _).trans (remove_seq f.1 l)

theorem call_seq_le (l : DiskLedger π) (c : DiskCall π) : (l.call c).seq ≤ l.seq + 1 := by
  have hremove : ∀ path, (l.remove path).seq ≤ l.seq + 1 := fun path => by
    rw [remove_seq]
    exact Nat.le_succ _
  cases c with
  | setLive path bytes worker => exact Nat.le_refl _
  | setCache path len worker =>
    cases len with
    | none => exact hremove path
    | some bytes => exact Nat.le_refl _
  | touch path bytes =>
    change (l.touch path bytes).seq ≤ l.seq + 1
    unfold DiskLedger.touch
    dsimp only
    split
    · exact Nat.le_refl _
    · exact Nat.le_refl _
  | remove path => exact hremove path
  | enforce =>
    change l.swept.1.seq ≤ l.seq + 1
    rw [swept, sweep_seq]
    exact Nat.le_succ _

/-- A run whose calls fit is one without overflow. -/
theorem RanWords.ran {s : Option (DiskLedger π)} (h : RanWords build budget Fits calls s)
    (hcalls : calls.length < size) :
    ∃ l, s = some l ∧ Ran budget calls l ∧ l.used < size ∧ l.seq ≤ calls.length := by
  induction h with
  | new => exact ⟨_, rfl, .new, Nat.two_pow_pos 64, Nat.le_refl 0⟩
  | @call calls l h c hfits ih =>
    rw [List.length_cons] at hcalls
    obtain ⟨l, hl, hran, hword, hseq⟩ := ih (by omega)
    cases hl
    obtain ⟨hcall, hword'⟩ := hran.kept.accounted.callWords hword (by omega) hfits
    refine ⟨_, hcall, hran.call c, hword', ?_⟩
    have hle := call_seq_le l c
    rw [List.length_cons]
    omega
  | rehash h files hperm ih =>
    obtain ⟨l, hl, hran, hword, hseq⟩ := ih hcalls
    cases hl
    exact ⟨_, rfl, hran.rehash files hperm, hword, hseq⟩

/-- While the calls fit, and are fewer than there are words, none panics and the ledger is governed;
and the first that does not fit panics or leaves a ledger that is not. -/
theorem disk_ledger {s : Option (DiskLedger π)} (h : RanWords build budget Fits calls s)
    (hcalls : calls.length < size) :
    ∃ l, s = some l ∧ GovernedWords build calls l ∧
      ∀ c, calls.length + 1 < size → ¬ l.Fits c →
        ∀ l', l.callWords build c = some l' → ¬ GovernedWords build (c :: calls) l' := by
  obtain ⟨l, rfl, hran, hword, hseq⟩ := h.ran hcalls
  have haccounted := hran.kept.accounted
  refine ⟨l, rfl, ⟨hran.governed, fun rounds => haccounted.enforceWords hword⟩, ?_⟩
  intro c hcount hfits l' hcall hgoverned
  exact haccounted.not_fits (by omega) hfits hcall hgoverned.used

/-- A call more that fits. -/
theorem RanWords.next (h : RanWords build budget Fits calls (some l))
    (hcalls : calls.length + 1 < size) (hfits : l.Fits c) :
    RanWords build budget Fits (c :: calls) (some (l.call c)) := by
  obtain ⟨l', hl, hran, hword, hseq⟩ := h.ran (by omega)
  cases hl
  rw [← (hran.kept.accounted.callWords hword (by omega) hfits).1]
  exact h.call c hfits

/-- A live file and two cache files, of 1200 bytes where 1000 fit. -/
def crowded : DiskLedger Nat :=
  ((((new 1000).setLive 0 600 7).setCache 1 (some 300) 7).setCache 2 (some 300) 7)

theorem disk_ledger_crowded :
    GovernedWords .debug [.setCache 2 (some 300) 7, .setCache 1 (some 300) 7, .setLive 0 600 7]
      crowded := by
  have hlive : RanWords .debug 1000 Fits [DiskCall.setLive 0 600 7]
      (some ((new 1000).setLive 0 600 7)) :=
    RanWords.new.next (c := .setLive 0 600 7) (by decide)
      (show (new 1000).others 0 + 600 < size by decide)
  have hold := hlive.next (c := .setCache 1 (some 300) 7) (by decide) (by rintro _ ⟨⟩; decide)
  have hran := hold.next (c := .setCache 2 (some 300) 7) (by decide) (by rintro _ ⟨⟩; decide)
  obtain ⟨l, hl, hgoverned, -⟩ := disk_ledger hran (by decide)
  cases hl
  exact hgoverned

example : crowded.used = 1200 ∧ crowded.swept.2.map Sigma.fst = [1] ∧
    crowded.enforce.2.shedFromWorker = none := by decide

/-- One file that leaves room for none. -/
def full : DiskLedger Nat := (new 1000).setLive 0 (2 ^ 64 - 1) 7

/-- A byte more: nothing is used where the sum wraps, and it panics where that is checked. -/
theorem not_governed_of_overflow :
    (∃ l, RanWords .release 1000 (fun _ _ => True)
        [.setLive 1 1 7, .setLive 0 (2 ^ 64 - 1) 7] (some l) ∧ l.used = 0 ∧
      ¬ GovernedWords .release [DiskCall.setLive 1 1 7, .setLive 0 (2 ^ 64 - 1) 7] l) ∧
    RanWords .debug 1000 (fun _ _ => True)
      [DiskCall.setLive 1 1 7, .setLive 0 (2 ^ 64 - 1) 7] none := by
  have hnew : (new 1000 : DiskLedger Nat).Accounted := rfl
  have hfull : full.Accounted := hnew.upsert 0 (2 ^ 64 - 1) .live 7
  have hfirst : ∀ build, (new 1000).callWords build (.setLive 0 (2 ^ 64 - 1) 7) = some full :=
    fun build => (hnew.callWords (c := .setLive 0 (2 ^ 64 - 1) 7) (by decide) (by decide)
      (show (new 1000).others 0 + (2 ^ 64 - 1) < size by decide)).1
  have hsecond : ∀ build, full.callWords build (.setLive 1 1 7) =
      (fit build (full.others 1 + 1)).map fun used => { full.upsert 1 1 .live 7 with used } :=
    fun build => @Accounted.upsertWords Nat _ build full 1 hfull (by decide) 1 .live 7
  have hrun : ∀ build, RanWords build 1000 (fun _ _ => True)
      [.setLive 1 1 7, .setLive 0 (2 ^ 64 - 1) 7] (full.callWords build (.setLive 1 1 7)) := by
    intro build
    have hone : RanWords build 1000 (fun _ _ => True) [.setLive 0 (2 ^ 64 - 1) 7]
        ((new 1000).callWords build (.setLive 0 (2 ^ 64 - 1) 7)) := .call .new _ trivial
    rw [hfirst] at hone
    exact hone.call _ trivial
  constructor
  · have h := hrun .release
    rw [hsecond] at h
    refine ⟨_, h, rfl, fun h => ?_⟩
    exact absurd h.used (by decide)
  · have h := hrun .debug
    rw [hsecond] at h
    exact h

end Fafo.DiskLedger
