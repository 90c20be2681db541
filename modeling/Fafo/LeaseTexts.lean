import Mathlib.Algebra.Group.Nat.Defs
import Fafo.Incarnations
import Fafo.KeyTexts

/-! The texts of the lease space: what the three readers of a listing make of it, block by block. -/
namespace Fafo.LeaseTexts

open Edge (parseUsize splitOnce)
open Leases (LeaseKey LeaseState LeaseMap maxEpoch Current)
open Listing (Name)

def spaceText : Name := ['_', 'l', 'e', 'a', 's', 'e', '/']

def jsonSuffix : Name := ['.', 'j', 's', 'o', 'n']

def releasedSuffix : Name := ['.', 'r', 'e', 'l', 'e', 'a', 's', 'e', 'd']

/-- `_lease/b`. -/
def blockText : Name := spaceText ++ ['b']

/-- `_lease/b<block>/`. -/
def blockPrefix (block : Nat) : Name := blockText ++ (Nat.toDigits 10 block ++ ['/'])

def leaseKey (block epoch : Nat) : Name :=
  blockPrefix block ++ 'e' :: (Nat.toDigits 10 epoch ++ jsonSuffix)

def tombstoneKey (block epoch : Nat) : Name :=
  blockPrefix block ++ 'e' :: (Nat.toDigits 10 epoch ++ releasedSuffix)

/-- The epoch, in what follows the block. -/
def parseEpoch (entry : Name) : Option Nat :=
  (['e'].isPrefixOf? entry).bind fun k => (jsonSuffix.isSuffixOf? k).bind parseUsize

def bestEpoch (block : Nat) (keys : List Name) : Option Nat :=
  keys.foldl (fun best key =>
    match ((blockPrefix block).isPrefixOf? key).bind parseEpoch with
    | some epoch => if best.all fun e => decide (e < epoch) then some epoch else best
    | none => best) none

inductive LeaseError where
  | store
  | json
  deriving DecidableEq, Repr

/-- A store that nobody writes to: its keys, the prefixes whose listing fails, what a read gives,
and the address a lease's bytes parse to. -/
structure Quiet (V : Type) where
  keys : List Name
  unlisted : Name → Option LeaseError := fun _ => none
  get : Name → Except LeaseError (Option V)
  addr : V → Option Nat

variable {V : Type} (s : Quiet V)

/-- The keys with a prefix. -/
def Quiet.under (pre : Name) : List Name := s.keys.filter fun key => pre.isPrefixOf key

def Quiet.list (pre : Name) : Except LeaseError (List Name) :=
  match s.unlisted pre with
  | some e => .error e
  | none => .ok (s.under pre)

def leaseFromKeys (block : Nat) (keys : List Name) : Except LeaseError (Option LeaseState) :=
  match bestEpoch block keys with
  | none => .ok none
  | some epoch =>
    match s.get (leaseKey block epoch) with
    | .error e => .error e
    | .ok none => .ok none
    | .ok (some bytes) =>
      match s.addr bytes with
      | none => .error .json
      | some addr => .ok (some ⟨epoch, addr, keys.contains (tombstoneKey block epoch)⟩)

def latestLease (block : Nat) : Except LeaseError (Option LeaseState) :=
  (s.list (blockPrefix block)).bind (leaseFromKeys s block)

/-- The block that `load_leases` files a key under. -/
def blockOf (blocks : Nat) (key : Name) : Option Nat :=
  (blockText.isPrefixOf? key).bind fun k =>
    (parseUsize (k.takeWhile (· ≠ '/'))).filter fun b => decide (b < blocks)

/-- `by_block`. -/
abbrev Groups := Blobs Nat (List Name)

def byBlock (blocks : Nat) (keys : List Name) : Groups :=
  keys.foldl (fun groups key =>
    match blockOf blocks key with
    | some b => groups.insert b ((groups.lookup b).getD [] ++ [key])
    | none => groups) ∅

/-- The leases of the groups, up to the first that cannot be read. -/
def loadGroups : List (Σ _ : Nat, List Name) → LeaseMap → Except LeaseError LeaseMap
  | [], out => .ok out
  | ⟨block, keys⟩ :: groups, out =>
    match leaseFromKeys s block keys with
    | .error e => .error e
    | .ok none => loadGroups groups out
    | .ok (some state) => loadGroups groups (Function.update out block (some state))

def loadLeases (blocks : Nat) : Except LeaseError LeaseMap :=
  (s.list spaceText).bind fun keys => loadGroups s (byBlock blocks keys).entries fun _ => none

/-- The block and epoch that `verify_leases` reads in a key. -/
def verifyKey (key : Name) : Option (Nat × Nat) :=
  (blockText.isPrefixOf? key).bind fun rest =>
    (splitOnce '/' rest).bind fun (block, entry) =>
      (parseUsize block).bind fun b => (parseEpoch entry).map fun epoch => (b, epoch)

def maxEpochs (keys : List Name) (block : Nat) : Option Nat :=
  keys.foldl (fun best key =>
    match verifyKey key with
    | some (b, epoch) => if b = block then some ((best.getD epoch).max epoch) else best
    | none => best) none

/-- No lease that is held has been superseded. -/
def stillHeld (keys : List Name) (epochs : List (Nat × Nat)) : Bool :=
  epochs.all fun held => decide ((maxEpochs keys held.1).getD 0 ≤ held.2)

theorem slash_toDigits (n : Nat) : '/' ∉ Nat.toDigits 10 n := by
  intro h
  exact absurd (Edge.isDigit_toDigits h) (by decide)

theorem blockOf_of_prefix {blocks block : Nat} {key : Name} (hblocks : blocks ≤ 2 ^ 64)
    (hblock : block < blocks) (h : (blockPrefix block).isPrefixOf key = true) :
    blockOf blocks key = some block := by
  obtain ⟨rest, rfl⟩ := List.isPrefixOf_iff_prefix.mp h
  have htake : (Nat.toDigits 10 block ++ ['/'] ++ rest).takeWhile (· ≠ '/') =
      Nat.toDigits 10 block := by
    rw [List.append_assoc, List.takeWhile_append_of_pos]
    · simp
    · intro c hc
      exact decide_eq_true fun heq => slash_toDigits block (heq ▸ hc)
  rw [blockOf, blockPrefix, List.append_assoc, Lists.isPrefixOf?_append, Option.bind_some, htake,
    Edge.parseUsize_toDigits (by omega), Option.filter_some, if_pos (decide_eq_true hblock)]

/-- What does not start with the block's prefix does not count. -/
theorem bestEpoch_filter (block : Nat) (keys : List Name) (p : Name → Bool)
    (hp : ∀ key ∈ keys, (blockPrefix block).isPrefixOf key = true → p key = true) :
    bestEpoch block (keys.filter p) = bestEpoch block keys := by
  unfold bestEpoch
  generalize (none : Option Nat) = best
  induction keys generalizing best with
  | nil => rfl
  | cons key keys ih =>
    have hrest := fun k hk => hp k (List.mem_cons_of_mem _ hk)
    rw [List.foldl_cons]
    by_cases hkey : p key = true
    · rw [List.filter_cons_of_pos hkey, List.foldl_cons]
      exact ih hrest _
    · have hnone : (blockPrefix block).isPrefixOf? key = none := by
        rw [← Option.not_isSome_iff_eq_none, List.isSome_isPrefixOf?_eq_isPrefixOf]
        exact fun hpre => hkey (hp key List.mem_cons_self hpre)
      rw [List.filter_cons_of_neg hkey, hnone]
      exact ih hrest _

theorem isPrefix_tombstone (block epoch : Nat) :
    (blockPrefix block).isPrefixOf (tombstoneKey block epoch) = true :=
  List.isPrefixOf_iff_prefix.mpr (List.prefix_append _ _)

theorem leaseFromKeys_filter (block : Nat) (keys : List Name) (p : Name → Bool)
    (hp : ∀ key ∈ keys, (blockPrefix block).isPrefixOf key = true → p key = true) :
    leaseFromKeys s block (keys.filter p) = leaseFromKeys s block keys := by
  have htomb : ∀ epoch, (keys.filter p).contains (tombstoneKey block epoch) =
      keys.contains (tombstoneKey block epoch) := by
    intro epoch
    rw [Bool.eq_iff_iff, List.contains_iff_mem, List.contains_iff_mem, List.mem_filter]
    exact ⟨fun h => h.1, fun h => ⟨h, hp _ h (isPrefix_tombstone block epoch)⟩⟩
  unfold leaseFromKeys
  simp only [bestEpoch_filter block keys p hp, htomb]

/-- The keys filed under a block. -/
theorem lookup_byBlock (blocks block : Nat) (keys : List Name) :
    ((byBlock blocks keys).lookup block).getD [] =
      keys.filter fun key => decide (blockOf blocks key = some block) := by
  induction keys using List.reverseRecOn with
  | nil => rfl
  | append_singleton keys key ih =>
    rw [List.filter_append, ← ih, byBlock, List.foldl_concat, ← byBlock]
    cases hkey : blockOf blocks key with
    | none => simp [hkey]
    | some b =>
      by_cases hb : b = block
      · subst hb
        simp [hkey]
      · have hne : ¬ block = b := fun heq => hb heq.symm
        simp [hkey, hb, AList.lookup_insert_ne hne]

/-- A block under which something is filed is one of the blocks. -/
theorem lt_of_mem_byBlock {blocks block : Nat} {keys : List Name}
    (h : block ∈ byBlock blocks keys) : block < blocks := by
  induction keys using List.reverseRecOn with
  | nil => exact absurd h (AList.notMem_empty _)
  | append_singleton keys key ih =>
    rw [byBlock, List.foldl_concat, ← byBlock] at h
    cases hkey : blockOf blocks key with
    | none => exact ih (by simpa [hkey] using h)
    | some b =>
      rw [hkey] at h
      rcases AList.mem_insert _ |>.mp h with rfl | hmem
      · obtain ⟨k, _, hparse⟩ := Option.bind_eq_some_iff.mp hkey
        exact of_decide_eq_true (Option.filter_eq_some_iff.mp hparse).2
      · exact ih hmem

/-- What the leases of the groups are: each block's own, or none at all if one cannot be read. -/
def Loaded (groups : List (Σ _ : Nat, List Name)) (out : LeaseMap) :
    Except LeaseError LeaseMap → Prop
  | .ok out' =>
    (∀ block keys, groups.dlookup block = some keys →
      ∃ state, leaseFromKeys s block keys = .ok state ∧ out' block = state.or (out block)) ∧
      ∀ block, groups.dlookup block = none → out' block = out block
  | .error e => ∃ block keys, groups.dlookup block = some keys ∧
      leaseFromKeys s block keys = .error e

variable {s}

/-- One more group, whose lease is read first. -/
theorem Loaded.cons {b : Nat} {keys : List Name} {groups : List (Σ _ : Nat, List Name)}
    {out : LeaseMap} {state : Option LeaseState} {r : Except LeaseError LeaseMap}
    (hb : b ∉ groups.keys) (hread : leaseFromKeys s b keys = .ok state)
    (h : Loaded s groups (Function.update out b (state.or (out b))) r) :
    Loaded s (⟨b, keys⟩ :: groups) out r := by
  have hnone : groups.dlookup b = none := List.dlookup_eq_none.mpr hb
  cases r with
  | error e =>
    obtain ⟨block, ks, hlookup, herr⟩ := h
    have hne : block ≠ b := by
      rintro rfl
      rw [hnone] at hlookup
      cases hlookup
    exact ⟨block, ks, by rw [List.dlookup_cons_ne _ _ hne, hlookup], herr⟩
  | ok out' =>
    obtain ⟨hread', hrest⟩ := h
    constructor
    · intro block ks hlookup
      by_cases hne : block = b
      · subst hne
        rw [List.dlookup_cons_eq] at hlookup
        cases hlookup
        exact ⟨state, hread, by rw [hrest block hnone, Function.update_self]⟩
      · rw [List.dlookup_cons_ne _ _ hne] at hlookup
        obtain ⟨state', hstate', hout'⟩ := hread' block ks hlookup
        exact ⟨state', hstate', by rw [hout', Function.update_of_ne hne]⟩
    · intro block hlookup
      by_cases hne : block = b
      · subst hne
        rw [List.dlookup_cons_eq] at hlookup
        cases hlookup
      · rw [List.dlookup_cons_ne _ _ hne] at hlookup
        rw [hrest block hlookup, Function.update_of_ne hne]

theorem loaded_loadGroups {groups : List (Σ _ : Nat, List Name)} (hnodup : groups.NodupKeys)
    (out : LeaseMap) : Loaded s groups out (loadGroups s groups out) := by
  induction groups generalizing out with
  | nil =>
    refine ⟨fun block keys h => ?_, fun _ _ => rfl⟩
    cases h
  | cons group groups ih =>
    obtain ⟨b, keys⟩ := group
    obtain ⟨hb, hrest⟩ := List.nodupKeys_cons.mp hnodup
    rw [loadGroups]
    cases hread : leaseFromKeys s b keys with
    | error e => exact ⟨b, keys, List.dlookup_cons_eq .., hread⟩
    | ok state =>
      cases state with
      | none =>
        refine .cons hb hread ?_
        rw [Option.none_or, Function.update_eq_self]
        exact ih hrest out
      | some state =>
        refine .cons hb hread ?_
        rw [Option.some_or]
        exact ih hrest _

theorem Quiet.list_ok {pre : Name} {keys : List Name} (h : s.list pre = .ok keys) :
    keys = s.under pre := by
  unfold Quiet.list at h
  split at h
  · cases h
  · exact (Except.ok.inj h).symm

/-- What is filed under a block is as good as the block's own listing. -/
theorem leaseFromKeys_byBlock {blocks block : Nat} (hblocks : blocks ≤ 2 ^ 64)
    (hblock : block < blocks) :
    leaseFromKeys s block (((byBlock blocks (s.under spaceText)).lookup block).getD []) =
      leaseFromKeys s block (s.under (blockPrefix block)) := by
  rw [lookup_byBlock, Quiet.under, Quiet.under, List.filter_filter,
    leaseFromKeys_filter, leaseFromKeys_filter]
  · exact fun _ _ h => h
  · intro key _ h
    have hspace : spaceText.isPrefixOf key = true := by
      refine List.isPrefixOf_iff_prefix.mpr (.trans ?_ (List.isPrefixOf_iff_prefix.mp h))
      rw [blockPrefix, blockText, List.append_assoc]
      exact List.prefix_append _ _
    rw [hspace, blockOf_of_prefix hblocks hblock h]
    simp

/-- The groups of the whole space, loaded: every block gets what its own keys give. -/
theorem loadGroups_spec (s : Quiet V) {blocks : Nat} (hblocks : blocks ≤ 2 ^ 64) :
    (∀ leases, loadGroups s (byBlock blocks (s.under spaceText)).entries (fun _ => none) =
        .ok leases →
      (∀ block < blocks, leaseFromKeys s block (s.under (blockPrefix block)) =
        .ok (leases block)) ∧ ∀ block, blocks ≤ block → leases block = none) ∧
      ∀ e, loadGroups s (byBlock blocks (s.under spaceText)).entries (fun _ => none) = .error e →
        ∃ block < blocks, leaseFromKeys s block (s.under (blockPrefix block)) = .error e := by
  have hloaded := loaded_loadGroups (s := s) (byBlock blocks (s.under spaceText)).nodupKeys
    fun _ => none
  have hgroup : ∀ block < blocks, ∀ keys,
      (byBlock blocks (s.under spaceText)).entries.dlookup block = some keys →
        leaseFromKeys s block keys = leaseFromKeys s block (s.under (blockPrefix block)) := by
    intro block hblock keys hlookup
    rw [← leaseFromKeys_byBlock hblocks hblock]
    change _ = leaseFromKeys s block
      (((byBlock blocks (s.under spaceText)).entries.dlookup block).getD [])
    rw [hlookup, Option.getD_some]
  have hmem : ∀ block keys,
      (byBlock blocks (s.under spaceText)).entries.dlookup block = some keys → block < blocks := by
    intro block keys hlookup
    have hin : block ∈ byBlock blocks (s.under spaceText) := AList.lookup_isSome.mp ?_
    · exact lt_of_mem_byBlock hin
    change ((byBlock blocks (s.under spaceText)).entries.dlookup block).isSome
    rw [hlookup, Option.isSome_some]
  constructor
  · intro leases hr
    rw [hr] at hloaded
    obtain ⟨hread, hrest⟩ := hloaded
    constructor
    · intro block hblock
      cases hlookup : (byBlock blocks (s.under spaceText)).entries.dlookup block with
      | none =>
        rw [← leaseFromKeys_byBlock hblocks hblock, hrest block hlookup]
        change leaseFromKeys s block
          (((byBlock blocks (s.under spaceText)).entries.dlookup block).getD []) = _
        rw [hlookup]
        rfl
      | some keys =>
        obtain ⟨state, hstate, hleases⟩ := hread block keys hlookup
        rw [← hgroup block hblock keys hlookup, hstate, hleases, Option.or_none]
    · intro block hblock
      refine hrest block (Option.eq_none_iff_forall_ne_some.mpr fun keys hlookup => ?_)
      exact absurd (hmem block keys hlookup) (Nat.not_lt.mpr hblock)
  · intro e hr
    rw [hr] at hloaded
    obtain ⟨block, keys, hlookup, herr⟩ := hloaded
    have hblock := hmem block keys hlookup
    exact ⟨block, hblock, (hgroup block hblock keys hlookup).symm.trans herr⟩

/-- One listing of the whole space is as good as one for each block, whatever is in it: every block
gets the lease that `latest_lease` reads if its own listing does not fail, and an error is that of
the listing or one that `latest_lease` meets. -/
theorem load_leases_reads_latest (s : Quiet V) (blocks : Nat) (hblocks : blocks ≤ 2 ^ 64) :
    (∀ leases, loadLeases s blocks = .ok leases →
        (∀ block < blocks, ∀ keys, s.list (blockPrefix block) = .ok keys →
          latestLease s block = .ok (leases block)) ∧
          ∀ block, blocks ≤ block → leases block = none) ∧
      ∀ e, loadLeases s blocks = .error e → s.list spaceText = .error e ∨
        ∃ block < blocks, ∀ keys, s.list (blockPrefix block) = .ok keys →
          latestLease s block = .error e := by
  have hlatest {block : Nat} {keys : List Name} (hkeys : s.list (blockPrefix block) = .ok keys) :
      latestLease s block = leaseFromKeys s block (s.under (blockPrefix block)) := by
    rw [latestLease, hkeys, Quiet.list_ok hkeys]
    rfl
  obtain ⟨hok, herror⟩ := loadGroups_spec s hblocks
  rw [loadLeases]
  cases hspace : s.list spaceText with
  | error e =>
    refine ⟨fun leases hr => ?_, fun e' hr => .inl ?_⟩
    · cases hr
    · cases hr
      rfl
  | ok keys =>
    obtain rfl := Quiet.list_ok hspace
    refine ⟨fun leases hr => ?_, fun e hr => .inr ?_⟩
    · obtain ⟨hread, hrest⟩ := hok leases hr
      exact ⟨fun block hblock keys hkeys => (hlatest hkeys).trans (hread block hblock), hrest⟩
    · obtain ⟨block, hblock, herr⟩ := herror e hr
      exact ⟨block, hblock, fun keys hkeys => (hlatest hkeys).trans herr⟩

/-- A block with a released lease, and keys that no node writes. -/
def junkStore : Quiet Nat where
  keys := [leaseKey 0 1, leaseKey 0 2, tombstoneKey 0 2, blockText ++ ['+', '1', '/', 'e'],
    blockText ++ ['0', '1', '/', 'e', '9'] ++ jsonSuffix, blockText ++ ['x'], leaseKey 5 1]
  get key := .ok (if key = leaseKey 0 2 then some 7 else none)
  addr bytes := some bytes

theorem load_leases_reads_latest_junkStore : ∃ leases, loadLeases junkStore 2 = .ok leases ∧
    ∀ block < 2, latestLease junkStore block = .ok (leases block) := by
  have hread := load_leases_reads_latest junkStore 2 (by decide)
  have hlatest : (latestLease junkStore 0).isOk = true ∧ (latestLease junkStore 1).isOk = true := by
    decide +kernel
  cases hload : loadLeases junkStore 2 with
  | error e =>
    obtain hspace | ⟨block, hblock, herr⟩ := hread.2 e hload
    · cases hspace
    · obtain rfl | rfl : block = 0 ∨ block = 1 := by omega
      · rw [herr _ rfl] at hlatest
        cases hlatest.1
      · rw [herr _ rfl] at hlatest
        cases hlatest.2
  | ok leases =>
    exact ⟨leases, rfl, fun block hblock => (hread.1 leases hload).1 block hblock _ rfl⟩

/-- What a key looks like. The junk of the space is named by numbers. -/
def leaseText : LeaseKey → Name
  | .lease block epoch => leaseKey block epoch
  | .tombstone block epoch => tombstoneKey block epoch
  | .other name => spaceText ++ Nat.toDigits 10 name

/-- Blocks and epochs are words. -/
def Fits : LeaseKey → Prop
  | .lease block epoch | .tombstone block epoch => block < 2 ^ 64 ∧ epoch < 2 ^ 64
  | .other _ => True

theorem parseEpoch_json {epoch : Nat} (h : epoch < 2 ^ 64) :
    parseEpoch ('e' :: (Nat.toDigits 10 epoch ++ jsonSuffix)) = some epoch := by
  have hsuffix : jsonSuffix.isSuffixOf? (Nat.toDigits 10 epoch ++ jsonSuffix) =
      some (Nat.toDigits 10 epoch) := List.isSuffixOf?_eq_some_iff_append_eq.mpr rfl
  have hprefix : ['e'].isPrefixOf? ('e' :: (Nat.toDigits 10 epoch ++ jsonSuffix)) =
      some (Nat.toDigits 10 epoch ++ jsonSuffix) := Lists.isPrefixOf?_append ['e'] _
  rw [parseEpoch, hprefix, Option.bind_some, hsuffix, Option.bind_some,
    Edge.parseUsize_toDigits h]

theorem parseEpoch_released (epoch : Nat) :
    parseEpoch ('e' :: (Nat.toDigits 10 epoch ++ releasedSuffix)) = none := by
  have hprefix : ['e'].isPrefixOf? ('e' :: (Nat.toDigits 10 epoch ++ releasedSuffix)) =
      some (Nat.toDigits 10 epoch ++ releasedSuffix) := Lists.isPrefixOf?_append ['e'] _
  have hsuffix : jsonSuffix.isSuffixOf? (Nat.toDigits 10 epoch ++ releasedSuffix) = none := by
    refine Option.eq_none_iff_forall_ne_some.mpr fun rest hrest => ?_
    have heq := List.isSuffixOf?_eq_some_iff_append_eq.mp hrest
    have hlast := congrArg List.getLast? heq
    simp [jsonSuffix, releasedSuffix] at hlast
  rw [parseEpoch, hprefix, Option.bind_some, hsuffix, Option.bind_none]

theorem blockPrefix_append_inj {b b' : Nat} {x y : Name}
    (h : blockPrefix b ++ x = blockPrefix b' ++ y) : b = b' ∧ x = y := by
  have hrest : Nat.toDigits 10 b ++ '/' :: x = Nat.toDigits 10 b' ++ '/' :: y := by
    simpa [blockPrefix] using h
  obtain ⟨hdigits, hxy⟩ :=
    KeyTexts.append_sep_inj (slash_toDigits b) (slash_toDigits b') hrest
  refine ⟨?_, hxy⟩
  rw [← Edge.number_toDigits b, hdigits, Edge.number_toDigits]

theorem isPrefixOf?_blockPrefix (b b' : Nat) (x : Name) :
    (blockPrefix b).isPrefixOf? (blockPrefix b' ++ x) = if b' = b then some x else none := by
  split
  · rename_i heq
    rw [heq, Lists.isPrefixOf?_append]
  · rename_i hne
    refine Option.eq_none_iff_forall_ne_some.mpr fun rest hrest => ?_
    exact hne (blockPrefix_append_inj (List.isPrefixOf?_eq_some_iff_append_eq.mp hrest)).1.symm

theorem blockText_other (name : Nat) :
    blockText.isPrefixOf? (spaceText ++ Nat.toDigits 10 name) = none := by
  refine Option.eq_none_iff_forall_ne_some.mpr fun rest hrest => ?_
  have heq := List.isPrefixOf?_eq_some_iff_append_eq.mp hrest
  rw [blockText, List.append_assoc] at heq
  have hdigits := List.append_cancel_left heq
  have hb : 'b' ∈ Nat.toDigits 10 name := by
    rw [← hdigits]
    exact List.mem_append_left _ (List.mem_singleton_self _)
  exact absurd (Edge.isDigit_toDigits hb) (by decide)

theorem epoch_leaseText (block : Nat) {k : LeaseKey} (h : Fits k) :
    ((blockPrefix block).isPrefixOf? (leaseText k)).bind parseEpoch = k.epochOf block := by
  cases k with
  | lease b epoch =>
    rw [leaseText, leaseKey, isPrefixOf?_blockPrefix, LeaseKey.epochOf]
    split
    · exact parseEpoch_json h.2
    · rfl
  | tombstone b epoch =>
    rw [leaseText, tombstoneKey, isPrefixOf?_blockPrefix]
    split
    · exact parseEpoch_released epoch
    · rfl
  | other name =>
    have hnone : (blockPrefix block).isPrefixOf? (spaceText ++ Nat.toDigits 10 name) = none := by
      refine Option.eq_none_iff_forall_ne_some.mpr fun rest hrest => ?_
      have heq := List.isPrefixOf?_eq_some_iff_append_eq.mp hrest
      rw [blockPrefix, List.append_assoc] at heq
      have hblock := blockText_other name
      rw [← heq, Lists.isPrefixOf?_append] at hblock
      cases hblock
    rw [leaseText, hnone]
    rfl

theorem verify_leaseText (block : Nat) {k : LeaseKey} (h : Fits k) :
    ((verifyKey (leaseText k)).bind fun p => if p.1 = block then some p.2 else none) =
      k.epochOf block := by
  have hsplit : ∀ (b : Nat) (entry : Name),
      splitOnce '/' (Nat.toDigits 10 b ++ '/' :: entry) = some (Nat.toDigits 10 b, entry) :=
    fun b entry => Edge.splitOnce_append fun c hc heq => slash_toDigits b (heq ▸ hc)
  have hblock : ∀ (b : Nat) (entry : Name), b < 2 ^ 64 → verifyKey (blockPrefix b ++ entry) =
      (parseEpoch entry).map fun epoch => (b, epoch) := by
    intro b entry hb
    rw [verifyKey, blockPrefix, List.append_assoc, List.append_assoc, Lists.isPrefixOf?_append,
      Option.bind_some, List.singleton_append, hsplit, Option.bind_some]
    dsimp only
    rw [Edge.parseUsize_toDigits hb, Option.bind_some]
  cases k with
  | lease b epoch =>
    rw [leaseText, leaseKey, hblock b _ h.1, parseEpoch_json h.2]
    rfl
  | tombstone b epoch =>
    rw [leaseText, tombstoneKey, hblock b _ h.1, parseEpoch_released]
    rfl
  | other name =>
    rw [leaseText, verifyKey, blockText_other]
    rfl

theorem bestEpoch_eq (block : Nat) (keys : List Name) :
    bestEpoch block keys =
      (keys.filterMap fun key => ((blockPrefix block).isPrefixOf? key).bind parseEpoch).max? := by
  induction keys using List.reverseRecOn with
  | nil => rfl
  | append_singleton keys key ih =>
    rw [bestEpoch, List.foldl_concat, ← bestEpoch, ih, List.filterMap_append]
    cases hkey : ((blockPrefix block).isPrefixOf? key).bind parseEpoch with
    | none => simp [hkey]
    | some epoch =>
      have hone : [key].filterMap (fun key =>
          ((blockPrefix block).isPrefixOf? key).bind parseEpoch) = [epoch] := by simp [hkey]
      rw [hone, Lists.max?_concat]
      generalize (keys.filterMap fun key =>
        ((blockPrefix block).isPrefixOf? key).bind parseEpoch).max? = best
      cases best with
      | none => simp
      | some e =>
        by_cases hlt : e < epoch
        · simp [hlt, Nat.max_eq_right (Nat.le_of_lt hlt)]
        · simp [hlt, Nat.max_eq_left (Nat.not_lt.mp hlt)]

theorem maxEpochs_eq (block : Nat) (keys : List Name) :
    maxEpochs keys block = (keys.filterMap fun key =>
      (verifyKey key).bind fun p => if p.1 = block then some p.2 else none).max? := by
  induction keys using List.reverseRecOn with
  | nil => rfl
  | append_singleton keys key ih =>
    rw [maxEpochs, List.foldl_concat, ← maxEpochs, ih, List.filterMap_append]
    cases hkey : verifyKey key with
    | none => simp [hkey]
    | some p =>
      obtain ⟨b, epoch⟩ := p
      by_cases hb : b = block
      · have hone : [key].filterMap (fun key => (verifyKey key).bind fun p =>
            if p.1 = block then some p.2 else none) = [epoch] := by simp [hkey, hb]
        rw [hone, Lists.max?_concat]
        dsimp only
        rw [if_pos hb]
      · have hnone : [key].filterMap (fun key => (verifyKey key).bind fun p =>
            if p.1 = block then some p.2 else none) = [] := by simp [hkey, hb]
        rw [hnone, List.append_nil]
        dsimp only
        rw [if_neg hb]

theorem filterMap_leaseText {f : Name → Option Nat} {block : Nat} {keys : List LeaseKey}
    (h : ∀ k ∈ keys, f (leaseText k) = k.epochOf block) :
    ((keys.map leaseText).filterMap f).max? = maxEpoch keys block := by
  rw [List.filterMap_map, maxEpoch]
  exact congrArg List.max? (List.filterMap_congr h)

theorem tombstone_mem_iff {block epoch : Nat} {keys : List LeaseKey} :
    tombstoneKey block epoch ∈ keys.map leaseText ↔ .tombstone block epoch ∈ keys := by
  constructor
  · intro h
    obtain ⟨k, hk, htext⟩ := List.mem_map.mp h
    cases k with
    | lease b e =>
      obtain ⟨_, hrest⟩ := blockPrefix_append_inj htext
      have hlast := congrArg List.getLast? (List.cons.inj hrest).2
      simp [jsonSuffix, releasedSuffix] at hlast
    | tombstone b e =>
      obtain ⟨rfl, hrest⟩ := blockPrefix_append_inj htext
      have hdigits := List.append_cancel_right (List.cons.inj hrest).2
      have he : e = epoch := by
        rw [← Edge.number_toDigits e, hdigits, Edge.number_toDigits]
      rwa [← he]
    | other name =>
      have hother := blockText_other name
      rw [leaseText] at htext
      rw [htext, tombstoneKey, blockPrefix, List.append_assoc, Lists.isPrefixOf?_append] at hother
      cases hother
  · intro h
    exact List.mem_map.mpr ⟨_, h, rfl⟩

/-- Of a space with the keys that nodes write, in any order and with junk beside them, the readers
of texts make what the model reads: the highest epoch of each block and whether it is released, and
whether a node still holds its leases. -/
theorem lease_texts_read (keys : List LeaseKey) (hfits : ∀ k ∈ keys, Fits k) :
    (∀ block, bestEpoch block (keys.map leaseText) = maxEpoch keys block) ∧
      (∀ block epoch, (keys.map leaseText).contains (tombstoneKey block epoch) =
        decide (.tombstone block epoch ∈ keys)) ∧
      ∀ epochs, stillHeld (keys.map leaseText) epochs = decide (Current keys epochs) := by
  refine ⟨fun block => ?_, fun block epoch => ?_, fun epochs => ?_⟩
  · rw [bestEpoch_eq]
    exact filterMap_leaseText fun k hk => epoch_leaseText block (hfits k hk)
  · rw [Bool.eq_iff_iff, List.contains_iff_mem, decide_eq_true_eq]
    exact tombstone_mem_iff
  · have hmax : ∀ block, maxEpochs (keys.map leaseText) block = maxEpoch keys block := by
      intro block
      rw [maxEpochs_eq]
      exact filterMap_leaseText fun k hk => verify_leaseText block (hfits k hk)
    rw [Bool.eq_iff_iff, stillHeld, List.all_eq_true, decide_eq_true_eq, Current]
    simp only [hmax, decide_eq_true_eq]

/-- A released lease and a live one, with junk between them. -/
theorem lease_texts_read_two :
    let keys : List LeaseKey := [.lease 3 12, .tombstone 3 9, .other 4, .lease 3 9]
    bestEpoch 3 (keys.map leaseText) = some 12 ∧
      stillHeld (keys.map leaseText) [(3, 9)] = false := by
  have hread := lease_texts_read [.lease 3 12, .tombstone 3 9, .other 4, .lease 3 9]
    (by simp [Fits])
  refine ⟨(hread.1 3).trans (by decide), (hread.2.2 [(3, 9)]).trans (by decide)⟩

end Fafo.LeaseTexts
