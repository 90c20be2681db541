import Fafo.FsStore

/-! The blob store in memory: its versions, and what a swap that succeeds has overwritten. -/
namespace Fafo.MemStore

open FsStore (Bytes sortKeys)
open Listing (Name)

/-- The versions stay when their blobs are deleted. -/
structure MemInner where
  blobs : Blobs Name Bytes := ∅
  versions : Blobs Name Nat := ∅

inductive MemOp where
  | get (key : Name)
  | put (key : Name) (bytes : Bytes)
  | delete (key : Name)
  | list (pre : Name)
  | create (key : Name) (bytes : Bytes)
  | version (key : Name)
  | putCas (key : Name) (expected : Nat) (bytes : Bytes)

def MemOp.Answer : MemOp → Type
  | get _ => Option Bytes
  | put _ _ => Unit
  | delete _ => Unit
  | list _ => List Name
  | create _ _ => Bool
  | version _ => Nat
  | putCas _ _ _ => Option Nat

namespace MemInner

/-- The next version of the key. -/
def next (s : MemInner) (key : Name) : Nat := (s.versions.lookup key).getD 0 + 1

/-- `bump`, and the blob with it. -/
def write (s : MemInner) (key : Name) (bytes : Bytes) : MemInner :=
  ⟨s.blobs.insert key bytes, s.versions.insert key (s.next key)⟩

def version (s : MemInner) (key : Name) : Nat :=
  if (s.blobs.lookup key).isSome then (s.versions.lookup key).getD 0 else 0

/-- The keys in order, from the prefix on and as long as they have it. -/
def list (s : MemInner) (pre : Name) : List Name :=
  ((sortKeys s.blobs.keys).dropWhile fun key => decide (key < pre)).takeWhile pre.isPrefixOf

def exec : (o : MemOp) → MemInner → o.Answer × MemInner
  | .get key, s => (s.blobs.lookup key, s)
  | .put key bytes, s => ((), s.write key bytes)
  | .delete key, s => ((), { s with blobs := s.blobs.erase key })
  | .list pre, s => (s.list pre, s)
  | .create key bytes, s =>
    if (s.blobs.lookup key).isSome then (false, s) else (true, s.write key bytes)
  | .version key, s => (s.version key, s)
  | .putCas key expected bytes, s =>
    if s.version key ≠ expected then (none, s) else (some (s.next key), s.write key bytes)

def run (s : MemInner) (ops : List MemOp) : MemInner := ops.foldl (fun s o => (exec o s).2) s

end MemInner

theorem prefix_le {pre key : Name} (h : pre <+: key) : pre ≤ key := by
  rw [← not_lt]
  exact List.not_lt.mpr h.le

theorem cons_le_cons {c d : Char} {a b : Name} (h : c :: a ≤ d :: b) :
    c < d ∨ c = d ∧ a ≤ b := by
  rw [← not_lt, List.cons_lt_cons_iff, not_or, not_and] at h
  obtain hlt | rfl | hgt := lt_trichotomy c d
  · exact .inl hlt
  · exact .inr ⟨rfl, not_lt.mp (h.2 rfl)⟩
  · exact absurd hgt h.1

/-- The keys with a prefix are next to each other. -/
theorem prefix_of_between {pre a b : Name} (hpre : pre <+: b) (hfrom : pre ≤ a) (hto : a ≤ b) :
    pre <+: a := by
  induction pre generalizing a b with
  | nil => exact List.nil_prefix
  | cons c pre ih =>
    obtain ⟨rest, rfl⟩ := hpre
    cases a with
    | nil => exact absurd (List.nil_lt_cons c pre) (not_lt.mpr hfrom)
    | cons d a =>
      obtain hlt | ⟨rfl, hbelow⟩ := cons_le_cons hfrom
      · obtain hgt | ⟨rfl, _⟩ := cons_le_cons hto
        · exact absurd hlt (lt_asymm hgt)
        · exact absurd hlt (lt_irrefl _)
      · obtain hgt | ⟨_, habove⟩ := cons_le_cons hto
        · exact absurd hgt (lt_irrefl _)
        · exact List.cons_prefix_cons.mpr ⟨rfl, ih ⟨rest, rfl⟩ hbelow habove⟩

/-- Where the keys in order begin no sooner than the prefix, those with it come first. -/
theorem takeWhile_prefix {pre : Name} {keys : List Name} (hsorted : keys.Pairwise (· ≤ ·))
    (hfrom : ∀ key ∈ keys, pre ≤ key) :
    keys.takeWhile pre.isPrefixOf = keys.filter pre.isPrefixOf := by
  induction keys with
  | nil => rfl
  | cons key keys ih =>
    obtain ⟨hkey, hkeys⟩ := List.pairwise_cons.mp hsorted
    by_cases hpre : pre.isPrefixOf key = true
    · rw [List.takeWhile_cons_of_pos hpre, List.filter_cons_of_pos hpre,
        ih hkeys fun k hk => hfrom k (List.mem_cons_of_mem _ hk)]
    · rw [List.takeWhile_cons_of_neg hpre, List.filter_cons_of_neg hpre, eq_comm,
        List.filter_eq_nil_iff]
      intro k hk hkpre
      rw [List.isPrefixOf_iff_prefix] at hpre hkpre
      exact hpre (prefix_of_between hkpre (hfrom key List.mem_cons_self) (hkey k hk))

/-- The keys from the prefix on. -/
theorem dropWhile_lt {pre : Name} {keys : List Name} (hsorted : keys.Pairwise (· ≤ ·)) :
    keys.dropWhile (fun key => decide (key < pre)) = keys.filter fun key => decide (pre ≤ key) := by
  induction keys with
  | nil => rfl
  | cons key keys ih =>
    obtain ⟨hkey, hkeys⟩ := List.pairwise_cons.mp hsorted
    by_cases hlt : key < pre
    · rw [List.dropWhile_cons_of_pos (by simpa using hlt),
        List.filter_cons_of_neg (by simpa using hlt), ih hkeys]
    · rw [List.dropWhile_cons_of_neg (by simpa using hlt), eq_comm, List.filter_eq_self]
      intro k hk
      have hle : pre ≤ key := not_lt.mp hlt
      obtain rfl | hrest := List.mem_cons.mp hk
      · exact decide_eq_true hle
      · exact decide_eq_true (hle.trans (hkey k hrest))

/-- The range of a prefix is what has it. -/
theorem range_is_listing (s : MemInner) (pre : Name) :
    s.list pre = sortKeys (s.blobs.keys.filter pre.isPrefixOf) := by
  have hsorted := FsStore.sortKeys_sorted s.blobs.keys
  rw [MemInner.list, dropWhile_lt hsorted, takeWhile_prefix (hsorted.filter _), List.filter_filter]
  · have hfilter : (sortKeys s.blobs.keys).filter
        (fun key => pre.isPrefixOf key && decide (pre ≤ key)) =
        (sortKeys s.blobs.keys).filter pre.isPrefixOf := by
      refine List.filter_congr fun key _ => ?_
      rw [Bool.and_eq_left_iff_imp]
      intro hpre
      exact decide_eq_true (prefix_le (List.isPrefixOf_iff_prefix.mp hpre))
    have hperm : ((sortKeys s.blobs.keys).filter pre.isPrefixOf).Perm
        (s.blobs.keys.filter pre.isPrefixOf) := (List.perm_insertionSort _ _).filter _
    rw [hfilter, ← FsStore.sortKeys_eq_iff.mpr hperm]
    exact (hsorted.filter _).insertionSort_eq.symm
  · intro key hkey
    exact of_decide_eq_true (List.mem_filter.mp hkey).2

section Versions

variable {s : MemInner} {key : Name}

/-- The greatest version that the key has had. -/
def highWater (s : MemInner) (key : Name) : Nat := (s.versions.lookup key).getD 0

/-- What an operation does to a key: nothing, its deletion, or a blob with the next version. -/
inductive Turn (key : Name) (s s' : MemInner) : Prop
  | kept (hblob : s'.blobs.lookup key = s.blobs.lookup key)
      (hhigh : highWater s' key = highWater s key)
  | deleted (hblob : s'.blobs.lookup key = none) (hhigh : highWater s' key = highWater s key)
  | written (hblob : (s'.blobs.lookup key).isSome) (hhigh : highWater s' key = highWater s key + 1)

theorem turn_write (s : MemInner) (key k : Name) (bytes : Bytes) :
    Turn key s (s.write k bytes) := by
  by_cases hk : key = k
  · subst hk
    refine .written ?_ ?_
    · rw [MemInner.write, AList.lookup_insert]
      rfl
    · rw [highWater, MemInner.write, AList.lookup_insert]
      rfl
  · refine .kept ?_ ?_
    · rw [MemInner.write, AList.lookup_insert_ne hk]
    · rw [highWater, MemInner.write, AList.lookup_insert_ne hk]
      rfl

theorem turn_exec (o : MemOp) (s : MemInner) (key : Name) : Turn key s (s.exec o).2 := by
  cases o with
  | get k => exact .kept rfl rfl
  | put k bytes => exact turn_write s key k bytes
  | delete k =>
    by_cases hk : key = k
    · subst hk
      exact .deleted (AList.lookup_erase _ _) rfl
    · exact .kept (AList.lookup_erase_ne hk) rfl
  | list pre => exact .kept rfl rfl
  | create k bytes =>
    rw [MemInner.exec]
    split
    · exact .kept rfl rfl
    · exact turn_write s key k bytes
  | version k => exact .kept rfl rfl
  | putCas k expected bytes =>
    rw [MemInner.exec]
    split
    · exact .kept rfl rfl
    · exact turn_write s key k bytes

theorem highWater_run (ops : List MemOp) (s : MemInner) (key : Name) :
    highWater s key ≤ highWater (s.run ops) key := by
  induction ops generalizing s with
  | nil => exact le_rfl
  | cons o ops ih =>
    have hrest := ih (s.exec o).2
    change _ ≤ highWater ((s.exec o).2.run ops) key
    obtain ⟨_, hhigh⟩ | ⟨_, hhigh⟩ | ⟨_, hhigh⟩ := turn_exec o s key <;> omega

/-- A blob comes to be with a greater version only. -/
theorem highWater_of_absent {ops : List MemOp} (hnone : s.blobs.lookup key = none)
    (hsome : ((s.run ops).blobs.lookup key).isSome) :
    highWater s key < highWater (s.run ops) key := by
  induction ops generalizing s with
  | nil =>
    rw [MemInner.run, List.foldl_nil, hnone] at hsome
    cases hsome
  | cons o ops ih =>
    have hrest := highWater_run ops (s.exec o).2 key
    change _ < highWater ((s.exec o).2.run ops) key
    cases turn_exec o s key with
    | kept hblob hhigh =>
      rw [← hhigh]
      exact ih (hblob.trans hnone) hsome
    | deleted hblob hhigh =>
      rw [← hhigh]
      exact ih hblob hsome
    | written hblob hhigh => omega

/-- Where a blob has the version it had, nothing has happened to it in between. -/
theorem kept_of_highWater {ops : List MemOp} (hsame : highWater (s.run ops) key = highWater s key)
    (hsome : ((s.run ops).blobs.lookup key).isSome) (n : Nat) :
    (s.run (ops.take n)).blobs.lookup key = s.blobs.lookup key := by
  induction ops generalizing s n with
  | nil => rw [List.take_nil, MemInner.run, List.foldl_nil]
  | cons o ops ih =>
    cases n with
    | zero => rfl
    | succ n =>
      have hrest := highWater_run ops (s.exec o).2 key
      change highWater ((s.exec o).2.run ops) key = _ at hsame
      change ((s.exec o).2.run (ops.take n)).blobs.lookup key = _
      cases turn_exec o s key with
      | kept hblob hhigh =>
        rw [ih (hsame.trans hhigh.symm) hsome, hblob]
      | deleted hblob hhigh =>
        have hgreater := highWater_of_absent hblob hsome
        omega
      | written hblob hhigh => omega

theorem version_pos (h : 0 < s.version key) :
    (s.blobs.lookup key).isSome ∧ s.version key = highWater s key := by
  unfold MemInner.version at h ⊢
  split at h
  · next hsome => exact ⟨hsome, if_pos hsome⟩
  · cases h

theorem version_le (s : MemInner) (key : Name) : s.version key ≤ highWater s key := by
  unfold MemInner.version
  split
  · exact le_rfl
  · exact Nat.zero_le _

theorem putCas_won {expected v' : Nat} {bytes : Bytes}
    (h : (s.exec (.putCas key expected bytes)).1 = some v') :
    s.version key = expected ∧ v' = highWater s key + 1 := by
  rw [MemInner.exec] at h
  split at h
  · cases h
  · next heq => exact ⟨not_not.mp heq, (Option.some.inj h).symm⟩

end Versions

theorem run_append (s : MemInner) (ops more : List MemOp) :
    s.run (ops ++ more) = (s.run ops).run more := List.foldl_append

/-- A swap that succeeds has overwritten the very blob whose version was read: whatever was done in
between, nobody has written or deleted it, and no version so far was as great as the new one. -/
theorem swap_overwrites_what_was_read {s : MemInner} {between : List MemOp} {key : Name}
    {v v' : Nat} {bytes : Bytes} (before : List MemOp) (hv : 0 < v)
    (hs : s = MemInner.run {} before) (hread : s.version key = v)
    (hswap : ((s.run between).exec (.putCas key v bytes)).1 = some v') :
    (∀ n, (s.run (between.take n)).blobs.lookup key = s.blobs.lookup key) ∧
      ∀ n, (MemInner.run {} ((before ++ between).take n)).version key < v' := by
  obtain ⟨hversion, rfl⟩ := putCas_won hswap
  obtain ⟨_, hhigh⟩ := version_pos (hread ▸ hv)
  obtain ⟨hsome, hhigh'⟩ := version_pos (hversion ▸ hv : 0 < (s.run between).version key)
  refine ⟨kept_of_highWater (by omega) hsome, fun n => ?_⟩
  have hall : s.run between =
      (MemInner.run {} ((before ++ between).take n)).run ((before ++ between).drop n) := by
    rw [← run_append, List.take_append_drop, run_append, hs]
  have hle := highWater_run ((before ++ between).drop n)
    (MemInner.run {} ((before ++ between).take n)) key
  rw [← hall] at hle
  have hversionLe := version_le (MemInner.run {} ((before ++ between).take n)) key
  omega

/-- A key is deleted and written again. -/
def recreated : List MemOp := [.put ['a'] [1], .delete ['a'], .put ['a'] [2]]

def look : List MemOp := [.get ['a']]

theorem swap_overwrites_what_was_read_recreated :
    (∀ n, ((MemInner.run {} recreated).run (look.take n)).blobs.lookup ['a'] =
        (MemInner.run {} recreated).blobs.lookup ['a']) ∧
      ∀ n, (MemInner.run {} ((recreated ++ look).take n)).version ['a'] < 3 := by
  have hswap : (((MemInner.run {} recreated).run look).exec (.putCas ['a'] 2 [3])).1 = some 3 := rfl
  exact swap_overwrites_what_was_read recreated Nat.two_pos rfl rfl hswap

end Fafo.MemStore
