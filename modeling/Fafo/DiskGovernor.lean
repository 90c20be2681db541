import Fafo.DiskLedger

/-! Runs of the disk ledger: the accounting, the order of the last touches, and enforcement. -/
namespace Fafo

variable {π : Type} [DecidableEq π]

/-- The calls that stamp a file: they register it, or resize it. -/
def DiskCall.touches (path : π) : DiskCall π → Bool
  | .setLive p _ _ => p = path
  | .setCache p len _ => p = path && len.isSome
  | .touch p _ => p = path
  | .remove _ => false
  | .enforce => false

namespace DiskLedger

/-- How many calls had been made when the file was last touched, the calls being listed from the
last one back. -/
def lastTouch (path : π) : List (DiskCall π) → Nat
  | [] => 0
  | c :: calls => if c.touches path then calls.length + 1 else lastTouch path calls

/-- The ledgers that a sequence of calls can lead to. A hash map may list its entries in any order.
-/
inductive Ran (budget : Nat) : List (DiskCall π) → DiskLedger π → Prop
  | new : Ran budget [] (new budget)
  | call {calls : List (DiskCall π)} {l : DiskLedger π} (h : Ran budget calls l)
      (c : DiskCall π) : Ran budget (c :: calls) (l.call c)
  | rehash {calls : List (DiskCall π)} {l : DiskLedger π} (h : Ran budget calls l)
      (files : AList fun _ : π => DiskEntry) (hperm : files.entries.Perm l.files.entries) :
      Ran budget calls { l with files }

/-- What a worker's live files take up. -/
def liveBytes (l : DiskLedger π) (worker : Nat) : Nat :=
  (((l.files.entries.filter fun f => f.2.state = .live).filter
    fun f => f.2.worker = worker).map fun f => f.2.bytes).sum

/-- What holds of a ledger between two calls, and what enforcement would then do: `used` is what the
tracked files take up; the loop ends by itself; it deletes cache files only, from the one touched
longest ago on, and none once the rest fits the budget; and when it cannot make it fit, the worker
it names has the most live bytes. -/
structure Governed (calls : List (DiskCall π)) (l : DiskLedger π) : Prop where
  used : l.used = l.total
  noUnderflow : ∀ path e, l.files.lookup path = some e → e.bytes ≤ l.used
  terminates : ∀ rounds, l.files.entries.length ≤ rounds → l.sweep rounds = l.swept
  removed : l.enforce.1 = l.swept.2.foldl (fun l f => l.remove f.1) l
  deleted : l.enforce.2.deletedCacheBytes = (l.swept.2.map fun f => f.2.bytes).sum
  cached : ∀ f ∈ l.swept.2, l.files.lookup f.1 = some f.2 ∧ f.2.state = .cache
  spared : ∀ path e, l.files.lookup path = some e → e.state = .live →
    l.enforce.1.files.lookup path = some e
  ordered : l.swept.2.Pairwise fun f g => lastTouch f.1 calls < lastTouch g.1 calls
  oldest : ∀ f ∈ l.swept.2, ∀ path e, l.enforce.1.files.lookup path = some e →
    e.state = .cache → lastTouch f.1 calls < lastTouch path calls
  stops : ∀ k < l.swept.2.length,
    l.budget < ((l.swept.2.take k).foldl (fun l f => l.remove f.1) l).used
  ends : l.enforce.1.used ≤ l.budget ∨
    ∀ path e, l.enforce.1.files.lookup path = some e → e.state = .live
  content : l.enforce.1.used ≤ l.budget → l.enforce.2.shedFromWorker = none
  names : l.budget < l.enforce.1.used → ∃ worker, l.enforce.2.shedFromWorker = some worker ∧
    (∃ path e, l.enforce.1.files.lookup path = some e ∧ e.worker = worker) ∧
    ∀ other, l.enforce.1.liveBytes other ≤ l.enforce.1.liveBytes worker

theorem lastTouch_le (path : π) (calls : List (DiskCall π)) :
    lastTouch path calls ≤ calls.length := by
  induction calls with
  | nil => exact Nat.le_refl 0
  | cons c calls ih =>
    rw [lastTouch, List.length_cons]
    split_ifs
    · omega
    · omega

/-- A call touches at most one file. -/
theorem touches_inj {c : DiskCall π} {p q : π} (hp : c.touches p) (hq : c.touches q) : p = q := by
  cases c with
  | setLive path => exact (of_decide_eq_true hp).symm.trans (of_decide_eq_true hq)
  | setCache path len =>
    simp only [DiskCall.touches, Bool.and_eq_true, decide_eq_true_eq] at hp hq
    exact hp.1.symm.trans hq.1
  | touch path => exact (of_decide_eq_true hp).symm.trans (of_decide_eq_true hq)
  | remove path => cases hp
  | enforce => cases hp

theorem lastTouch_inj {p q : π} {calls : List (DiskCall π)} (hpos : 0 < lastTouch p calls)
    (h : lastTouch p calls = lastTouch q calls) : p = q := by
  induction calls with
  | nil => cases hpos
  | cons c calls ih =>
    have hp := lastTouch_le p calls
    have hq := lastTouch_le q calls
    rw [lastTouch] at hpos h
    rw [lastTouch] at h
    split_ifs at h hpos with hcp hcq hcq
    · exact touches_inj hcp hcq
    · omega
    · omega
    · exact ih hpos h

/-- The accounting is right, and the stamps are in the order of the last touches. -/
structure Kept (calls : List (DiskCall π)) (l : DiskLedger π) : Prop where
  accounted : l.Accounted
  bound : ∀ p e, l.files.lookup p = some e → e.touched ≤ l.seq
  stamped : ∀ p e, l.files.lookup p = some e → 0 < lastTouch p calls
  ordered : ∀ p q e f, l.files.lookup p = some e → l.files.lookup q = some f →
    (e.touched < f.touched ↔ lastTouch p calls < lastTouch q calls)

variable {calls : List (DiskCall π)} {c : DiskCall π} {l l' : DiskLedger π}

/-- A call that stamps none of the files it leaves. -/
theorem Kept.shrunk (h : Kept calls l) (haccounted : l'.Accounted) (hseq : l.seq ≤ l'.seq)
    (hsub : ∀ q e, l'.files.lookup q = some e → l.files.lookup q = some e ∧ c.touches q = false) :
    Kept (c :: calls) l' := by
  have hlast : ∀ q e, l'.files.lookup q = some e →
      lastTouch q (c :: calls) = lastTouch q calls := by
    intro q e he
    rw [lastTouch, (hsub q e he).2]
    rfl
  refine ⟨haccounted, ?_, ?_, ?_⟩
  · intro p e hp
    have := h.bound p e (hsub p e hp).1
    omega
  · intro p e hp
    rw [hlast p e hp]
    exact h.stamped p e (hsub p e hp).1
  · intro p q e f hp hq
    rw [hlast p e hp, hlast q f hq]
    exact h.ordered p q e f (hsub p e hp).1 (hsub q f hq).1

/-- A call that stamps a file. -/
theorem Kept.stamp (h : Kept calls l) (haccounted : l'.Accounted) (hseq : l'.seq = l.seq + 1)
    {path : π} {new : DiskEntry} (hnew : new.touched = l.seq + 1)
    (hlookup : ∀ q, l'.files.lookup q = if q = path then some new else l.files.lookup q)
    (htouches : ∀ q, c.touches q = true ↔ q = path) : Kept (c :: calls) l' := by
  have hcases : ∀ q e, l'.files.lookup q = some e →
      q = path ∧ e.touched = l.seq + 1 ∧ lastTouch q (c :: calls) = calls.length + 1 ∨
      q ≠ path ∧ l.files.lookup q = some e ∧
        lastTouch q (c :: calls) = lastTouch q calls := by
    intro q e he
    rw [hlookup] at he
    rw [lastTouch]
    split_ifs at he with hq
    · cases he
      exact .inl ⟨hq, hnew, if_pos ((htouches q).mpr hq)⟩
    · exact .inr ⟨hq, he, if_neg (mt (htouches q).mp hq)⟩
  refine ⟨haccounted, ?_, ?_, ?_⟩
  · intro p e hp
    rcases hcases p e hp with ⟨_, ht, _⟩ | ⟨_, hp, _⟩
    · omega
    · have := h.bound p e hp
      omega
  · intro p e hp
    rcases hcases p e hp with ⟨_, _, hlast⟩ | ⟨_, hp, hlast⟩
    · omega
    · rw [hlast]
      exact h.stamped p e hp
  · intro p q e f hp hq
    rcases hcases p e hp with ⟨_, hte, hlp⟩ | ⟨_, hp, hlp⟩ <;>
      rcases hcases q f hq with ⟨_, htf, hlq⟩ | ⟨_, hq, hlq⟩
    · omega
    · have hbound := h.bound q f hq
      have hle := lastTouch_le q calls
      omega
    · have hbound := h.bound p e hp
      have hle := lastTouch_le p calls
      omega
    · rw [hlp, hlq]
      exact h.ordered p q e f hp hq

theorem Kept.upsert (h : Kept calls l) (path : π) (bytes : Nat) (state : FileState) (worker : Nat)
    (htouches : ∀ q, c.touches q = true ↔ q = path) :
    Kept (c :: calls) (l.upsert path bytes state worker) :=
  h.stamp (h.accounted.upsert path bytes state worker) rfl rfl
    (lookup_upsert path bytes state worker l) htouches

theorem Kept.remove (h : Kept calls l) (path : π) (htouches : ∀ q, c.touches q = false) :
    Kept (c :: calls) (l.remove path) := by
  refine h.shrunk (h.accounted.remove path) (remove_seq path l).ge fun q e he => ?_
  rw [lookup_remove] at he
  split_ifs at he
  exact ⟨he, htouches q⟩

theorem Kept.touch (h : Kept calls l) (path : π) (bytes : Nat) :
    Kept (.touch path bytes :: calls) (l.touch path bytes) := by
  have haccounted := h.accounted.touch path bytes
  have hseq : (l.touch path bytes).seq = l.seq + 1 := by
    unfold DiskLedger.touch
    dsimp only
    split <;> rfl
  have htouches : ∀ q, (DiskCall.touch path bytes).touches q = true ↔ q = path := fun q => by
    simp only [DiskCall.touches, decide_eq_true_eq]
    exact eq_comm
  cases hpath : l.files.lookup path with
  | none =>
    refine h.shrunk haccounted (by omega) fun q e he => ?_
    rw [lookup_touch, hpath] at he
    split_ifs at he with hq
    · cases he
    · exact ⟨he, Bool.eq_false_iff.mpr (mt (htouches q).mp hq)⟩
  | some e =>
    let new : DiskEntry := { e with bytes, touched := l.seq + 1 }
    have hnew : new.touched = l.seq + 1 := rfl
    refine h.stamp haccounted hseq hnew (fun q => ?_) htouches
    rw [lookup_touch, hpath]
    rfl

theorem enforce_eq (l : DiskLedger π) : l.enforce.1 = l.swept.1 := rfl

theorem Kept.enforce (h : Kept calls l) : Kept (.enforce :: calls) l.enforce.1 := by
  have hremoved := (sweep_swept l.files.entries.length l).removed
  have hseq : ∀ (files : List (Σ _ : π, DiskEntry)) (l : DiskLedger π),
      (files.foldl (fun l f => l.remove f.1) l).seq = l.seq := by
    intro files
    induction files with
    | nil => exact fun _ => rfl
    | cons f files ih => exact fun l => (ih _).trans (remove_seq f.1 l)
  refine h.shrunk ?_ ?_ fun q e he => ⟨sweep_sub he, rfl⟩
  · rw [enforce_eq, swept, hremoved]
    exact h.accounted.removeAll _
  · rw [enforce_eq, swept, hremoved, hseq]

theorem Kept.call (h : Kept calls l) (c : DiskCall π) : Kept (c :: calls) (l.call c) := by
  cases c with
  | setLive path bytes worker =>
    refine h.upsert path bytes .live worker fun q => ?_
    simp only [DiskCall.touches, decide_eq_true_eq]
    exact eq_comm
  | setCache path len worker =>
    cases len with
    | none => exact h.remove path fun q => by simp [DiskCall.touches]
    | some bytes =>
      refine h.upsert path bytes .cache worker fun q => ?_
      simp only [DiskCall.touches, Option.isSome_some, Bool.and_true, decide_eq_true_eq]
      exact eq_comm
  | touch path bytes => exact h.touch path bytes
  | remove path => exact h.remove path fun _ => rfl
  | enforce => exact h.enforce

theorem Kept.rehash (h : Kept calls l) {files : AList fun _ : π => DiskEntry}
    (hperm : files.entries.Perm l.files.entries) : Kept calls { l with files } := by
  have hlookup : ∀ q, files.lookup q = l.files.lookup q := fun q => AList.perm_lookup hperm
  refine ⟨?_, ?_, ?_, ?_⟩
  · exact h.accounted.trans (Tally.total_perm hperm).symm
  · intro p e hp
    exact h.bound p e ((hlookup p).symm.trans hp)
  · intro p e hp
    exact h.stamped p e ((hlookup p).symm.trans hp)
  · intro p q e f hp hq
    exact h.ordered p q e f ((hlookup p).symm.trans hp) ((hlookup q).symm.trans hq)

theorem Ran.kept {budget : Nat} (h : Ran budget calls l) : Kept calls l := by
  induction h with
  | new => exact ⟨rfl, by simp [DiskLedger.new], by simp [DiskLedger.new], by simp [DiskLedger.new]⟩
  | call _ c ih => exact ih.call c
  | rehash _ files hperm ih => exact ih.rehash hperm

theorem Kept.distinguished (h : Kept calls l) : l.Distinguished := by
  intro p q e f hp hq heq
  have hpq := (h.ordered p q e f hp hq).not
  have hqp := (h.ordered q p f e hq hp).not
  exact lastTouch_inj (h.stamped p e hp) (by omega)

theorem lookup_liveByWorker {l : DiskLedger π} {worker n : Nat} :
    l.liveByWorker.lookup worker = some n ↔
      (∃ path e, l.files.lookup path = some e ∧ e.state = .live ∧ e.worker = worker) ∧
        n = l.liveBytes worker := by
  have hiff : (∃ f ∈ l.files.entries.filter fun f => f.2.state = .live, f.2.worker = worker) ↔
      ∃ path e, l.files.lookup path = some e ∧ e.state = .live ∧ e.worker = worker := by
    constructor
    · rintro ⟨f, hf, hworker⟩
      obtain ⟨hmem, hlive⟩ := List.mem_filter.mp hf
      exact ⟨f.1, f.2, AList.mem_lookup_iff.mpr hmem, of_decide_eq_true hlive, hworker⟩
    · rintro ⟨path, e, he, hlive, hworker⟩
      exact ⟨⟨path, e⟩, List.mem_filter.mpr
        ⟨AList.mem_lookup_iff.mp he, decide_eq_true hlive⟩, hworker⟩
  rw [liveByWorker, Tally.lookup_byKey, ← hiff]
  split_ifs with hworker
  · simp only [hworker, true_and, Option.some.injEq]
    exact eq_comm
  · exact ⟨nofun, fun h => (hworker h.1).elim⟩

/-- A ledger without cache files that is over its budget has a heaviest worker. -/
theorem heaviest_worker (haccounted : l.Accounted) (hover : l.budget < l.used)
    (hlive : ∀ path e, l.files.lookup path = some e → e.state = .live) :
    ∃ worker, Tally.heaviest l.liveByWorker = some worker ∧
      (∃ path e, l.files.lookup path = some e ∧ e.worker = worker) ∧
      ∀ other, l.liveBytes other ≤ l.liveBytes worker := by
  cases hheaviest : Tally.heaviest l.liveByWorker with
  | none =>
    -- then nothing is tracked, and nothing is used
    have hnone : l.files.entries = [] := by
      refine List.eq_nil_iff_forall_not_mem.mpr fun f hf => ?_
      have hlookup := AList.mem_lookup_iff.mpr hf
      have hworker : l.liveByWorker.lookup f.2.worker = some (l.liveBytes f.2.worker) :=
        lookup_liveByWorker.mpr ⟨⟨f.1, f.2, hlookup, hlive f.1 f.2 hlookup, rfl⟩, rfl⟩
      rw [Tally.heaviest_eq_none.mp hheaviest] at hworker
      cases hworker
    have hzero : l.used = 0 := by
      rw [haccounted, total, Tally.total, hnone]
      rfl
    omega
  | some worker =>
    obtain ⟨n, hn, hmax⟩ := Tally.heaviest_spec hheaviest
    obtain ⟨⟨path, e, he, _, heq⟩, rfl⟩ := lookup_liveByWorker.mp hn
    refine ⟨worker, rfl, ⟨path, e, he, heq⟩, fun other => ?_⟩
    by_cases hother : ∃ path e, l.files.lookup path = some e ∧ e.state = .live ∧ e.worker = other
    · exact hmax other _ (lookup_liveByWorker.mpr ⟨hother, rfl⟩)
    · have hnil : (l.files.entries.filter fun f => f.2.state = .live).filter
          (fun f => f.2.worker = other) = [] := by
        rw [List.filter_eq_nil_iff]
        intro f hf hworker
        obtain ⟨hmem, hstate⟩ := List.mem_filter.mp hf
        exact hother ⟨f.1, f.2, AList.mem_lookup_iff.mpr hmem, of_decide_eq_true hstate,
          of_decide_eq_true hworker⟩
      rw [liveBytes, hnil]
      exact Nat.zero_le _

theorem sweep_budget (rounds : Nat) (l : DiskLedger π) : (l.sweep rounds).1.budget = l.budget := by
  induction rounds generalizing l with
  | zero => rfl
  | succ rounds ih =>
    rw [sweep]
    split_ifs
    · rfl
    cases l.victim with
    | none => rfl
    | some f => exact (ih _).trans (remove_budget f.1 l)

/-- Without overflow, every run is governed. -/
theorem Ran.governed {budget : Nat} (h : Ran budget calls l) : Governed calls l := by
  have hkept := h.kept
  have hspec := sweep_swept l.files.entries.length l
  have hends := (sweep_ends (Nat.le_refl l.files.entries.length)).1
  have horder := @sweep_order _ _ l.files.entries.length l hkept.distinguished
  have hbudget : l.enforce.1.budget = l.budget := sweep_budget _ l
  have hlive : l.budget < l.enforce.1.used →
      ∀ path e, l.enforce.1.files.lookup path = some e → e.state = .live := by
    intro hover path e he
    rcases hends with hfits | hvictim
    · exact absurd hfits (Nat.not_le.mpr hover)
    · exact victim_none hvictim he
  constructor
  case used => exact hkept.accounted
  case noUnderflow => exact fun path e he => hkept.accounted.le_used he
  case terminates => exact fun rounds hrounds => sweep_rounds hrounds
  case removed => exact hspec.removed
  case deleted => rfl
  case cached => exact hspec.cached
  case spared => exact fun path e he hlive => sweep_spares he hlive
  case ordered =>
    refine horder.1.imp_of_mem fun {f g} hf hg hlt => ?_
    exact (hkept.ordered f.1 g.1 f.2 g.2 (hspec.cached f hf).1 (hspec.cached g hg).1).mp hlt
  case oldest =>
    intro f hf path e he hcache
    have hlt := horder.2 f hf path e he hcache
    exact (hkept.ordered f.1 path f.2 e (hspec.cached f hf).1 (sweep_sub he)).mp hlt
  case stops => exact hspec.pressed
  case ends =>
    by_cases hover : l.budget < l.enforce.1.used
    · exact .inr (hlive hover)
    · exact .inl (Nat.not_lt.mp hover)
  case content =>
    intro hfits
    show (if l.enforce.1.used ≤ l.enforce.1.budget then none else _) = none
    rw [hbudget, if_pos hfits]
  case names =>
    intro hover
    have hnot : ¬ l.enforce.1.used ≤ l.enforce.1.budget := by omega
    obtain ⟨worker, hworker, hrest⟩ := heaviest_worker (l := l.enforce.1)
      hkept.enforce.accounted (by omega) (hlive hover)
    refine ⟨worker, ?_, hrest⟩
    show (if l.enforce.1.used ≤ l.enforce.1.budget then none else _) = some worker
    rw [if_neg hnot]
    exact hworker

end DiskLedger

end Fafo
