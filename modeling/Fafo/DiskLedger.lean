import Fafo.Library.Tally

/-! The disk ledger: what the tracked files take up, and what enforcement deletes. -/
namespace Fafo

inductive FileState where
  | live
  | cache
  deriving DecidableEq

/-- A tracked file. -/
structure DiskEntry where
  bytes : Nat
  state : FileState
  worker : Nat
  touched : Nat

structure DiskLedger (π : Type) where
  budget : Nat
  used : Nat := 0
  seq : Nat := 0
  files : AList fun _ : π => DiskEntry := ∅

structure Enforcement where
  deletedCacheBytes : Nat
  shedFromWorker : Option Nat

/-- The calls of the ledger. `set_cache` comes with the length that the file's metadata shows, if it
has any. -/
inductive DiskCall (π : Type) where
  | setLive (path : π) (bytes worker : Nat)
  | setCache (path : π) (len : Option Nat) (worker : Nat)
  | touch (path : π) (bytes : Nat)
  | remove (path : π)
  | enforce

namespace DiskLedger

variable {π : Type} [DecidableEq π]

def new (budget : Nat) : DiskLedger π := { budget }

def upsert (path : π) (bytes : Nat) (state : FileState) (worker : Nat) (l : DiskLedger π) :
    DiskLedger π :=
  let seq := l.seq + 1
  { l with
    seq
    used := l.used - ((l.files.lookup path).map DiskEntry.bytes).getD 0 + bytes
    files := l.files.insert path ⟨bytes, state, worker, seq⟩ }

def setLive (path : π) (bytes worker : Nat) (l : DiskLedger π) : DiskLedger π :=
  l.upsert path bytes .live worker

def remove (path : π) (l : DiskLedger π) : DiskLedger π :=
  match l.files.lookup path with
  | some e => { l with used := l.used - e.bytes, files := l.files.erase path }
  | none => l

/-- A file that never materialized, or is gone already, is dropped. -/
def setCache (path : π) (len : Option Nat) (worker : Nat) (l : DiskLedger π) : DiskLedger π :=
  match len with
  | some bytes => l.upsert path bytes .cache worker
  | none => l.remove path

def touch (path : π) (bytes : Nat) (l : DiskLedger π) : DiskLedger π :=
  let l := { l with seq := l.seq + 1 }
  match l.files.lookup path with
  | some e =>
    { l with
      used := l.used - e.bytes + bytes
      files := l.files.insert path { e with bytes, touched := l.seq } }
  | none => l

/-- The cache file touched longest ago. -/
def victim (l : DiskLedger π) : Option (Σ _ : π, DiskEntry) :=
  (l.files.entries.filter fun f => f.2.state = .cache).argmin fun f => f.2.touched

/-- The deletion loop, for at most so many rounds: what it has unlinked, in order. -/
def sweep : Nat → DiskLedger π → DiskLedger π × List (Σ _ : π, DiskEntry)
  | 0, l => (l, [])
  | rounds + 1, l =>
    if l.used ≤ l.budget then (l, [])
    else
      match l.victim with
      | none => (l, [])
      | some f =>
        let (after, unlinked) := (l.remove f.1).sweep rounds
        (after, f :: unlinked)

/-- Every round deletes a file, so that there are no more of them than files. -/
def swept (l : DiskLedger π) : DiskLedger π × List (Σ _ : π, DiskEntry) :=
  l.sweep l.files.entries.length

/-- What each worker's live files take up. -/
def liveByWorker (l : DiskLedger π) : AList fun _ : Nat => Nat :=
  Tally.byKey (fun f : Σ _ : π, DiskEntry => f.2.worker) (fun f => f.2.bytes)
    (l.files.entries.filter fun f => f.2.state = .live)

/-- Delete cache files, the one touched longest ago first, until the rest fits the budget. If the
caches alone do not cover it, name the worker with the most live bytes. -/
def enforce (l : DiskLedger π) : DiskLedger π × Enforcement :=
  let (after, unlinked) := l.swept
  (after,
    { deletedCacheBytes := (unlinked.map fun f => f.2.bytes).sum
      shedFromWorker :=
        if after.used ≤ after.budget then none else Tally.heaviest after.liveByWorker })

def call (l : DiskLedger π) : DiskCall π → DiskLedger π
  | .setLive path bytes worker => l.setLive path bytes worker
  | .setCache path len worker => l.setCache path len worker
  | .touch path bytes => l.touch path bytes
  | .remove path => l.remove path
  | .enforce => l.enforce.1

@[simp] theorem lookup_upsert (path : π) (bytes : Nat) (state : FileState) (worker : Nat)
    (l : DiskLedger π) (q : π) :
    (l.upsert path bytes state worker).files.lookup q =
      if q = path then some ⟨bytes, state, worker, l.seq + 1⟩ else l.files.lookup q := by
  unfold upsert
  split_ifs with hq
  · rw [hq, AList.lookup_insert]
  · exact AList.lookup_insert_ne hq

@[simp] theorem lookup_remove (path : π) (l : DiskLedger π) (q : π) :
    (l.remove path).files.lookup q = if q = path then none else l.files.lookup q := by
  unfold remove
  cases hpath : l.files.lookup path with
  | none =>
    split_ifs with hq
    · rw [hq, hpath]
    · rfl
  | some e =>
    split_ifs with hq
    · rw [hq, AList.lookup_erase]
    · exact AList.lookup_erase_ne hq

@[simp] theorem lookup_touch (path : π) (bytes : Nat) (l : DiskLedger π) (q : π) :
    (l.touch path bytes).files.lookup q =
      if q = path then
        (l.files.lookup path).map fun e => { e with bytes, touched := l.seq + 1 }
      else l.files.lookup q := by
  unfold touch
  cases hpath : l.files.lookup path with
  | none =>
    simp only [hpath]
    split_ifs with hq
    · rw [hq, hpath]
      rfl
    · rfl
  | some e =>
    simp only [hpath]
    split_ifs with hq
    · rw [hq, AList.lookup_insert]
      rfl
    · exact AList.lookup_insert_ne hq

theorem remove_budget (path : π) (l : DiskLedger π) : (l.remove path).budget = l.budget := by
  unfold remove
  split <;> rfl

theorem remove_seq (path : π) (l : DiskLedger π) : (l.remove path).seq = l.seq := by
  unfold remove
  split <;> rfl

/-- What the tracked files take up. -/
def total (l : DiskLedger π) : Nat := Tally.total (fun _ e => e.bytes) l.files

def Accounted (l : DiskLedger π) : Prop := l.used = l.total

/-- No subtraction underflows: what is subtracted is what a tracked file takes up. -/
theorem Accounted.le_used {l : DiskLedger π} (h : l.Accounted) {path : π} {e : DiskEntry}
    (he : l.files.lookup path = some e) : e.bytes ≤ l.used := by
  rw [h]
  exact Tally.le_total (f := fun _ e => e.bytes) he

theorem Accounted.upsert {l : DiskLedger π} (h : l.Accounted) (path : π) (bytes : Nat)
    (state : FileState) (worker : Nat) : (l.upsert path bytes state worker).Accounted := by
  have hinsert := Tally.total_insert (f := fun _ e => e.bytes) (m := l.files) (k := path)
    (v := (⟨bytes, state, worker, l.seq + 1⟩ : DiskEntry))
  unfold Accounted total at h ⊢
  unfold DiskLedger.upsert
  dsimp only at hinsert ⊢
  cases hpath : l.files.lookup path with
  | none =>
    rw [Tally.erase_of_none hpath] at hinsert
    simp only [Option.map_none, Option.getD_none]
    omega
  | some e =>
    have herase := Tally.total_erase (f := fun _ e => DiskEntry.bytes e) hpath
    simp only [Option.map_some, Option.getD_some]
    omega

theorem Accounted.remove {l : DiskLedger π} (h : l.Accounted) (path : π) :
    (l.remove path).Accounted := by
  unfold DiskLedger.remove
  cases hpath : l.files.lookup path with
  | none => exact h
  | some e =>
    have herase := Tally.total_erase (f := fun _ e => DiskEntry.bytes e) hpath
    unfold Accounted total at h ⊢
    dsimp only
    omega

theorem Accounted.touch {l : DiskLedger π} (h : l.Accounted) (path : π) (bytes : Nat) :
    (l.touch path bytes).Accounted := by
  unfold DiskLedger.touch
  dsimp only
  cases hpath : l.files.lookup path with
  | none => exact h
  | some e =>
    have hinsert := Tally.total_insert (f := fun _ e => e.bytes) (m := l.files) (k := path)
      (v := { e with bytes, touched := l.seq + 1 })
    have herase := Tally.total_erase (f := fun _ e => DiskEntry.bytes e) hpath
    unfold Accounted total at h ⊢
    dsimp only at hinsert ⊢
    omega

theorem Accounted.removeAll {l : DiskLedger π} (h : l.Accounted)
    (files : List (Σ _ : π, DiskEntry)) :
    (files.foldl (fun l f => l.remove f.1) l).Accounted := by
  induction files generalizing l with
  | nil => exact h
  | cons f files ih => exact ih (h.remove f.1)

/-- What the loop leaves behind, and what it has unlinked. -/
structure Swept (l after : DiskLedger π) (unlinked : List (Σ _ : π, DiskEntry)) : Prop where
  removed : after = unlinked.foldl (fun l f => l.remove f.1) l
  cached : ∀ f ∈ unlinked, l.files.lookup f.1 = some f.2 ∧ f.2.state = .cache
  pressed : ∀ k < unlinked.length,
    l.budget < ((unlinked.take k).foldl (fun l f => l.remove f.1) l).used

theorem victim_spec {l : DiskLedger π} {f : Σ _ : π, DiskEntry} (h : l.victim = some f) :
    l.files.lookup f.1 = some f.2 ∧ f.2.state = .cache ∧
      ∀ q e, l.files.lookup q = some e → e.state = .cache → f.2.touched ≤ e.touched := by
  have hmem := List.mem_filter.mp (List.argmin_mem h)
  refine ⟨AList.mem_lookup_iff.mpr hmem.1, of_decide_eq_true hmem.2, fun q e he hcache => ?_⟩
  have hin : ⟨q, e⟩ ∈ l.files.entries.filter fun f => f.2.state = .cache :=
    List.mem_filter.mpr ⟨AList.mem_lookup_iff.mp he, decide_eq_true hcache⟩
  exact List.le_of_mem_argmin (f := fun f : Σ _ : π, DiskEntry => f.2.touched) hin h

theorem victim_none {l : DiskLedger π} (h : l.victim = none) {q : π} {e : DiskEntry}
    (he : l.files.lookup q = some e) : e.state = .live := by
  have hnil := List.argmin_eq_none.mp h
  have hnot := List.filter_eq_nil_iff.mp hnil ⟨q, e⟩ (AList.mem_lookup_iff.mp he)
  cases hstate : e.state with
  | live => rfl
  | cache => exact (hnot (decide_eq_true hstate)).elim

theorem sweep_swept (rounds : Nat) (l : DiskLedger π) :
    Swept l (l.sweep rounds).1 (l.sweep rounds).2 := by
  induction rounds generalizing l with
  | zero => exact ⟨rfl, by simp [sweep], by simp [sweep]⟩
  | succ rounds ih =>
    rw [sweep]
    split_ifs with hfits
    · exact ⟨rfl, by simp, by simp⟩
    cases hvictim : l.victim with
    | none => exact ⟨rfl, by simp, by simp⟩
    | some f =>
      obtain ⟨hremoved, hcached, hover⟩ := ih (l.remove f.1)
      obtain ⟨hf, hcache, _⟩ := victim_spec hvictim
      refine ⟨hremoved, ?_, ?_⟩
      · intro g hg
        rcases List.mem_cons.mp hg with rfl | hg
        · exact ⟨hf, hcache⟩
        · obtain ⟨hlookup, hstate⟩ := hcached g hg
          rw [lookup_remove] at hlookup
          split_ifs at hlookup
          exact ⟨hlookup, hstate⟩
      · intro k hk
        cases k with
        | zero => exact Nat.lt_of_not_le hfits
        | succ k =>
          have := hover k (Nat.lt_of_succ_lt_succ hk)
          rwa [remove_budget] at this

theorem length_remove {l : DiskLedger π} {path : π} {e : DiskEntry}
    (h : l.files.lookup path = some e) :
    (l.remove path).files.entries.length + 1 = l.files.entries.length := by
  unfold remove
  rw [h]
  exact Tally.length_erase h

/-- The loop ends where its condition fails or there is no victim, and never for want of rounds. -/
theorem sweep_ends {rounds : Nat} {l : DiskLedger π} (h : l.files.entries.length ≤ rounds) :
    ((l.sweep rounds).1.used ≤ l.budget ∨ (l.sweep rounds).1.victim = none) ∧
      l.sweep (rounds + 1) = l.sweep rounds := by
  induction rounds generalizing l with
  | zero =>
    have hnil : l.files.entries = [] := List.length_eq_zero_iff.mp (by omega)
    have hvictim : l.victim = none := by simp [victim, hnil]
    exact ⟨.inr hvictim, by simp [sweep, hvictim]⟩
  | succ rounds ih =>
    rw [sweep, sweep]
    split_ifs with hfits
    · exact ⟨.inl hfits, rfl⟩
    cases hvictim : l.victim with
    | none => exact ⟨.inr hvictim, rfl⟩
    | some f =>
      have hlength := length_remove (victim_spec hvictim).1
      obtain ⟨hend, hmore⟩ := ih (l := l.remove f.1) (by omega)
      rw [remove_budget] at hend
      dsimp only
      rw [hmore]
      exact ⟨hend, rfl⟩

theorem sweep_rounds {rounds : Nat} {l : DiskLedger π} (h : l.files.entries.length ≤ rounds) :
    l.sweep rounds = l.swept := by
  induction rounds, h using Nat.le_induction with
  | base => rfl
  | succ rounds h ih => exact (sweep_ends h).2.trans ih

/-- What is left is what was there and is not unlinked. -/
theorem lookup_removeAll (files : List (Σ _ : π, DiskEntry)) (l : DiskLedger π) (q : π) :
    (files.foldl (fun l f => l.remove f.1) l).files.lookup q =
      if (∃ f ∈ files, f.1 = q) then none else l.files.lookup q := by
  induction files generalizing l with
  | nil => simp
  | cons f files ih =>
    rw [List.foldl_cons, ih, lookup_remove]
    simp only [List.mem_cons, or_and_right, exists_or, exists_eq_left]
    by_cases hq : f.1 = q
    · simp [hq]
    · rw [if_neg (Ne.symm hq)]
      simp only [hq, false_or]

/-- No live file is unlinked. -/
theorem sweep_spares {rounds : Nat} {l : DiskLedger π} {path : π} {e : DiskEntry}
    (he : l.files.lookup path = some e) (hlive : e.state = .live) :
    (l.sweep rounds).1.files.lookup path = some e := by
  obtain ⟨hremoved, hcached, _⟩ := sweep_swept rounds l
  rw [hremoved, lookup_removeAll, if_neg, he]
  rintro ⟨f, hf, rfl⟩
  obtain ⟨hlookup, hcache⟩ := hcached f hf
  rw [he] at hlookup
  cases hlookup
  rw [hlive] at hcache
  cases hcache

theorem sweep_sub {rounds : Nat} {l : DiskLedger π} {path : π} {e : DiskEntry}
    (he : (l.sweep rounds).1.files.lookup path = some e) : l.files.lookup path = some e := by
  obtain ⟨hremoved, _, _⟩ := sweep_swept rounds l
  rw [hremoved, lookup_removeAll] at he
  split_ifs at he
  exact he

/-- No two tracked files were touched at once. -/
def Distinguished (l : DiskLedger π) : Prop :=
  ∀ p q e f, l.files.lookup p = some e → l.files.lookup q = some f → e.touched = f.touched → p = q

theorem Distinguished.remove {l : DiskLedger π} (h : l.Distinguished) (path : π) :
    (l.remove path).Distinguished := by
  intro p q e f hp hq heq
  rw [lookup_remove] at hp hq
  split_ifs at hp hq
  exact h p q e f hp hq heq

/-- Cache files go in the order in which they were touched, and before those that stay. -/
theorem sweep_order {rounds : Nat} {l : DiskLedger π} (h : l.Distinguished) :
    (l.sweep rounds).2.Pairwise (fun f g => f.2.touched < g.2.touched) ∧
      ∀ f ∈ (l.sweep rounds).2, ∀ q e, (l.sweep rounds).1.files.lookup q = some e →
        e.state = .cache → f.2.touched < e.touched := by
  induction rounds generalizing l with
  | zero => exact ⟨List.Pairwise.nil, by simp [sweep]⟩
  | succ rounds ih =>
    rw [sweep]
    split_ifs with hfits
    · exact ⟨List.Pairwise.nil, by simp⟩
    cases hvictim : l.victim with
    | none => exact ⟨List.Pairwise.nil, by simp⟩
    | some f =>
      obtain ⟨hf, _, hmin⟩ := victim_spec hvictim
      -- whatever cache file is left was touched after the victim
      have hlater : ∀ q e, (l.remove f.1).files.lookup q = some e → e.state = .cache →
          f.2.touched < e.touched := by
        intro q e he hcache
        rw [lookup_remove] at he
        split_ifs at he with hq
        have hne : f.2.touched ≠ e.touched := fun heq => hq (h f.1 q f.2 e hf he heq).symm
        have hle := hmin q e he hcache
        omega
      obtain ⟨horder, hleft⟩ := ih (h.remove f.1)
      dsimp only
      constructor
      · refine List.Pairwise.cons (fun g hg => ?_) horder
        obtain ⟨hlookup, hcache⟩ := (sweep_swept rounds (l.remove f.1)).cached g hg
        exact hlater g.1 g.2 hlookup hcache
      · intro g hg q e he hcache
        rcases List.mem_cons.mp hg with rfl | hg
        · exact hlater q e (sweep_sub he) hcache
        · exact hleft g hg q e he hcache

end DiskLedger

end Fafo
