import Fafo.Deltas
import Fafo.Library.Runs

/-! Files rebuilt from chains of deltas, and what the width of a page number costs. -/
namespace Fafo.Deltas

open Bytes

variable {hash : List UInt8 → UInt64} {m : Manifest} {base old new : File} {files : List File}

/-- The manifest and the file after one more diff. -/
def diffed (hash : List UInt8 → UInt64) (s : Manifest × File) (new : File) : Manifest × File :=
  ((diff hash s.1 new).2, new)

/-- The deltas to one file after the other, with the manifest updated in place. -/
def deltas (hash : List UInt8 → UInt64) : Manifest → List File → List Delta
  | _, [] => []
  | m, new :: files => (diff hash m new).1 :: deltas hash (diff hash m new).2 files

/-- From any file of the chain the deltas after it lead to any later one, and a delta changes
nothing in the file it leads to. -/
structure Rebuilds (hash : List UInt8 → UInt64) (m : Manifest) (base : File) (files : List File) :
    Prop where
  chain : ∀ k n : Nat, k ≤ n → ∀ f, (base :: files)[k]? = some f → ∀ g,
    (base :: files)[n]? = some g → (((deltas hash m files).take n).drop k).foldl apply f = g
  again : ∀ (k : Nat) f, files[k]? = some f → ∀ d, (deltas hash m files)[k]? = some d →
    apply f d = f

/-- A page of some file is told by its hash. -/
def Distinct (hash : List UInt8 → UInt64) (size : Nat) (files : List File) : Prop :=
  ∀ f ∈ files, ∀ g ∈ files, ∀ p ∈ pages size f, ∀ q ∈ pages size g, hash p = hash q → p = q

/-- A changed page whose index does not fit a u32 has nothing left to change: the old file, cut or
filled up, already has it, and stamping all such pages leaves the new file as it is. -/
structure Harmless (hash : List UInt8 → UInt64) (s : Manifest × File) (new : File) : Prop where
  there : ∀ i ∈ changed hash s.1 new, 2 ^ 32 ≤ i →
    page s.1.pageSize (resize s.2 new.length 0) i = page s.1.pageSize new i
  home : stamp s.1.pageSize new ((changed hash s.1 new).filter (2 ^ 32 ≤ ·)) new = new

theorem rebuilds_nil : Rebuilds hash m base [] where
  chain k n hkn f hf g hg := by
    cases n with
    | zero =>
      obtain rfl : k = 0 := by omega
      rw [hf] at hg
      exact Option.some.inj hg
    | succ n => cases hg
  again k f hf := by cases hf

/-- A chain is rebuilt when its first step is, and the rest of it. -/
theorem rebuilds_cons : Rebuilds hash m base (new :: files) ↔
    (apply base (diff hash m new).1 = new ∧ apply new (diff hash m new).1 = new) ∧
      Rebuilds hash (diff hash m new).2 new files := by
  constructor
  · rintro ⟨hchain, hagain⟩
    refine ⟨⟨?_, hagain 0 new rfl _ rfl⟩, fun k n hkn f hf g hg => ?_, fun k f hf d hd => ?_⟩
    · exact hchain 0 1 (by omega) base rfl new rfl
    · exact hchain (k + 1) (n + 1) (by omega) f hf g hg
    · exact hagain (k + 1) f hf d hd
  · rintro ⟨⟨hfirst, hself⟩, hchain, hagain⟩
    refine ⟨fun k n hkn f hf g hg => ?_, fun k f hf d hd => ?_⟩
    · cases n with
      | zero =>
        obtain rfl : k = 0 := by omega
        rw [hf] at hg
        exact Option.some.inj hg
      | succ n =>
        cases k with
        | zero =>
          cases hf
          change ((deltas hash (diff hash m new).2 files).take n).foldl apply
            (apply base (diff hash m new).1) = g
          rw [hfirst]
          exact hchain 0 n (by omega) new rfl g hg
        | succ k => exact hchain k n (by omega) f hf g hg
    · cases k with
      | zero =>
        cases hf
        cases hd
        exact hself
      | succ k => exact hagain k f hf d hd

theorem length_stamp (size : Nat) (is : List Nat) (file : File) :
    (stamp size new is file).length = file.length := by
  induction is generalizing file with
  | nil => rfl
  | cons i is ih => exact (ih _).trans (length_overwrite_le _)

theorem stamp_append (size : Nat) (is is' : List Nat) (file : File) :
    stamp size new (is ++ is') file = stamp size new is' (stamp size new is file) :=
  List.foldl_append

/-- Nothing is stamped past the places that a u32 can number. -/
theorem getElem?_stamp {size k : Nat} (hsize : 0 < size) (hk : 2 ^ 32 ≤ k / size) (is : List Nat)
    (file : File) : (stamp size new is file)[k]? = file[k]? := by
  induction is generalizing file with
  | nil => rfl
  | cons i is ih =>
    refine (ih _).trans (getElem?_overwrite_of_ne hsize ?_ ?_)
    · rw [length_page]
      omega
    · have hmod : i % 2 ^ 32 < 2 ^ 32 := Nat.mod_lt _ (by omega)
      omega

/-- An ascending list, split at a bound. -/
theorem filter_split {is : List Nat} (h : is.Pairwise (· < ·)) (n : Nat) :
    is = is.filter (· < n) ++ is.filter (n ≤ ·) := by
  induction is with
  | nil => rfl
  | cons i is ih =>
    obtain ⟨hi, htail⟩ := List.pairwise_cons.mp h
    by_cases hlt : i < n
    · rw [List.filter_cons_of_pos (by simpa using hlt),
        List.filter_cons_of_neg (by simpa using hlt), List.cons_append, ← ih htail]
    · have hnone : is.filter (· < n) = [] := by
        refine List.filter_eq_nil_iff.mpr fun j hj => ?_
        have hij := hi j hj
        simp only [decide_eq_true_eq]
        omega
      have hall : is.filter (n ≤ ·) = is := by
        refine List.filter_eq_self.mpr fun j hj => ?_
        have hij := hi j hj
        simp only [decide_eq_true_eq]
        omega
      rw [List.filter_cons_of_neg (by simpa using hlt),
        List.filter_cons_of_pos (by simpa using hlt), hnone, hall, List.nil_append]

/-- The changed pages that a u32 can number are written first, where they belong. -/
theorem stamp_changed (hash : List UInt8 → UInt64) (hsize : 0 < m.pageSize) {file : File}
    (hlen : file.length = new.length) :
    ∃ start : File, start.length = new.length ∧
      (∀ k, start[k]? = if k / m.pageSize ∈ (changed hash m new).filter (· < 2 ^ 32)
        then new[k]? else file[k]?) ∧
      stamp m.pageSize new (changed hash m new) file =
        stamp m.pageSize new ((changed hash m new).filter (2 ^ 32 ≤ ·)) start := by
  have hascending : (changed hash m new).Pairwise (· < ·) :=
    List.Pairwise.filter _ List.pairwise_lt_range
  refine ⟨stamp m.pageSize new ((changed hash m new).filter (· < 2 ^ 32)) file,
    (length_stamp _ _ _).trans hlen, fun k => ?_, ?_⟩
  · rw [stamp_of_lt fun i hi => by simpa using (List.mem_filter.mp hi).2]
    refine getElem?_overwrite_pages hsize _ hlen fun i hi => ?_
    exact (lt_pageCount_iff hsize).mp (mem_changed.mp (List.mem_filter.mp hi).1).1
  · rw [← stamp_append, ← filter_split hascending]

/-- The delta between two files leads from the one to the other, and leaves the other alone, exactly
when the pages whose numbers wrap around do no harm. -/
theorem apply_diff_iff_harmless (hsize : 0 < m.pageSize) (hfit : m.pageSize < 2 ^ 32)
    (hlen : new.length < 2 ^ 64) (hm : m.hashes = (pages m.pageSize old).map hash)
    (hdistinct : ∀ p ∈ pages m.pageSize old, ∀ q ∈ pages m.pageSize new, hash p = hash q → p = q) :
    (apply old (diff hash m new).1 = new ∧ apply new (diff hash m new).1 = new) ↔
      Harmless hash (m, old) new := by
  have hresize : resize new new.length 0 = new := by
    rw [resize, List.take_length, Nat.sub_self, List.replicate_zero, List.append_nil]
  rw [apply_diff_stamp hash old hfit hlen, apply_diff_stamp hash new hfit hlen, hresize]
  obtain ⟨start, hstart, hget, hold⟩ := stamp_changed hash hsize
    (length_resize old new.length (0 : UInt8))
  obtain ⟨start', -, hget', hnew⟩ := stamp_changed hash hsize (rfl : new.length = new.length)
  -- the pages that are numbered right leave the new file as it is
  have hsame : start' = new := by
    refine List.ext_getElem? fun k => ?_
    rw [hget']
    split_ifs <;> rfl
  subst hsame
  rw [hold, hnew]
  have hkept {i : Nat} (hi : i ∉ changed hash m start') :
      page m.pageSize (resize old start'.length 0) i = page m.pageSize start' i := by
    by_cases hin : i < pageCount m.pageSize start'
    · have hhas : m.has hash start' i :=
        Decidable.byContradiction fun hnot => hi (mem_changed.mpr ⟨hin, hnot⟩)
      refine page_resize hsize ?_
      rw [Manifest.has, hm, List.getElem?_map, getElem?_pages] at hhas
      split_ifs at hhas with hlt
      · exact hdistinct _ (mem_pages.mpr ⟨i, hlt, rfl⟩) _ (mem_pages.mpr ⟨i, hin, rfl⟩)
          (Option.some.inj hhas)
      · cases hhas
    · rw [lt_pageCount_iff hsize] at hin
      rw [page_eq_nil (by rw [length_resize]; omega), page_eq_nil (by omega)]
  constructor
  · rintro ⟨hleads, hstays⟩
    refine ⟨fun i hi hbig => (page_eq_iff hsize).mpr ?_, hstays⟩
    rintro k rfl
    have hk : start[k]? = start'[k]? := by
      rw [← getElem?_stamp hsize hbig ((changed hash m start').filter (2 ^ 32 ≤ ·)) start, hleads]
    rw [hget, if_neg] at hk
    · exact hk
    · exact fun hmem => absurd (List.mem_filter.mp hmem).2 (by simpa using hbig)
  · rintro ⟨hthere, hhome⟩
    have heq : start = start' := by
      refine List.ext_getElem? fun k => ?_
      rw [hget]
      split_ifs with hlow
      · rfl
      · refine (page_eq_iff hsize).mp ?_ k rfl
        by_cases hin : k / m.pageSize ∈ changed hash m start'
        · refine hthere _ hin ?_
          by_contra hsmall
          exact hlow (List.mem_filter.mpr ⟨hin, by simpa using hsmall⟩)
        · exact hkept hin
    rw [heq]
    exact ⟨hhome, hhome⟩

/-- A file of at most 2^32 pages has none that wraps around. -/
theorem harmless_of_pageCount {s : Manifest × File} (h : pageCount s.1.pageSize new ≤ 2 ^ 32) :
    Harmless hash s new := by
  have hsmall : ∀ i ∈ changed hash s.1 new, i < 2 ^ 32 := by
    intro i hi
    have hlt : i < pageCount s.1.pageSize new := (mem_changed.mp hi).1
    omega
  refine ⟨fun i hi hbig => absurd (hsmall i hi) (by omega), ?_⟩
  have hnone : (changed hash s.1 new).filter (2 ^ 32 ≤ ·) = [] := by
    refine List.filter_eq_nil_iff.mpr fun i hi => ?_
    have hlt := hsmall i hi
    simp only [decide_eq_true_eq]
    omega
  rw [hnone]
  rfl

theorem rebuilds_iff_harmless (hsize : 0 < m.pageSize) (hfit : m.pageSize < 2 ^ 32)
    (hm : m.hashes = (pages m.pageSize base).map hash) (hlen : ∀ f ∈ files, f.length < 2 ^ 64)
    (hdistinct : Distinct hash m.pageSize (base :: files)) :
    Rebuilds hash m base files ↔ Runs.Guarded (diffed hash) (Harmless hash) (m, base) files := by
  induction files generalizing m base with
  | nil => exact ⟨fun _ => trivial, fun _ => rebuilds_nil⟩
  | cons new files ih =>
    obtain ⟨hnew, hrest⟩ := List.forall_mem_cons.mp hlen
    have hstep := apply_diff_iff_harmless hsize hfit hnew hm
      (hdistinct base List.mem_cons_self new (List.mem_cons_of_mem _ List.mem_cons_self))
    have hrest' := ih (m := (diff hash m new).2) hsize hfit rfl hrest fun f hf g hg =>
      hdistinct f (List.mem_cons_of_mem _ hf) g (List.mem_cons_of_mem _ hg)
    rw [rebuilds_cons, hstep, hrest']
    rfl

/-- A chain of deltas rebuilds the files that it was made from exactly when, at every step, the
pages whose index does not fit a u32 do no harm. -/
theorem chain_rebuilds_iff (hash : List UInt8 → UInt64) (base : File) (chainLen : Nat)
    (files : List File) (hlen : ∀ f ∈ files, f.length < 2 ^ 64)
    (hdistinct : Distinct hash (pageSize base) (base :: files)) :
    Rebuilds hash (.of hash base chainLen) base files ↔
      Runs.Guarded (diffed hash) (Harmless hash) (.of hash base chainLen, base) files := by
  have hle : pageSize base ≤ 65536 := pageSize_le base
  exact rebuilds_iff_harmless (pageSize_pos base) (show pageSize base < 2 ^ 32 by omega) rfl hlen
    hdistinct

section Demo

/-- A header that says two bytes to the page. -/
def narrow : File := List.replicate 17 0 ++ 2 :: List.replicate 82 0

/-- One byte more than 2^32 such pages. -/
def endless : File := List.replicate (2 ^ 33 + 1) 1

def bytesHash (p : List UInt8) : UInt64 := UInt64.ofNat (fromLE p)

theorem pageSize_narrow : pageSize narrow = 2 := by decide

theorem page_replicate (size n i : Nat) (b : UInt8) :
    page size (List.replicate n b) i = List.replicate (min size (n - i * size)) b := by
  rw [page, List.drop_replicate, List.take_replicate]

theorem pages_endless {p : List UInt8} (hp : p ∈ pages 2 endless) : p = [1, 1] ∨ p = [1] := by
  obtain ⟨i, hi, rfl⟩ := mem_pages.mp hp
  rw [lt_pageCount_iff (by omega), endless, List.length_replicate] at hi
  rw [endless, page_replicate]
  by_cases hlast : i = 2 ^ 32
  · subst hlast
    exact .inr rfl
  · rw [Nat.min_eq_left (by omega)]
    exact .inl rfl

theorem pages_narrow : ∀ p ∈ pages 2 narrow, p = [0, 0] ∨ p = [0, 2] := by decide

theorem distinct_endless : Distinct bytesHash (pageSize narrow) [narrow, endless] := by
  have hall : ∀ f ∈ [narrow, endless], ∀ p ∈ pages 2 f,
      p = [0, 0] ∨ p = [0, 2] ∨ p = [1, 1] ∨ p = [1] := by
    intro f hf p hp
    rcases List.mem_cons.mp hf with rfl | hf
    · rcases pages_narrow p hp with rfl | rfl
      · exact .inl rfl
      · exact .inr (.inl rfl)
    · rw [List.mem_singleton.mp hf] at hp
      exact .inr (.inr (pages_endless hp))
  intro f hf g hg p hp q hq heq
  rw [pageSize_narrow] at hp hq
  rcases hall f hf p hp with rfl | rfl | rfl | rfl <;>
    rcases hall g hg q hq with rfl | rfl | rfl | rfl <;>
      first | rfl | exact absurd heq (by decide)

/-- A file that is cut short, and grown again. -/
theorem chain_rebuilds_short :
    Rebuilds bytesHash (.of bytesHash [1, 2, 3] 0) [1, 2, 3] [[1], [1, 5]] ↔
    Runs.Guarded (diffed bytesHash) (Harmless bytesHash) (.of bytesHash [1, 2, 3] 0, [1, 2, 3])
      [[1], [1, 5]] :=
  chain_rebuilds_iff bytesHash [1, 2, 3] 0 [[1], [1, 5]] (by decide) (by unfold Distinct; decide)

/-- The page past the last that a u32 can number is stamped on the first one instead. -/
theorem last_page_lost : (∀ f ∈ [endless], f.length < 2 ^ 64) ∧
    Distinct bytesHash (pageSize narrow) [narrow, endless] ∧
    ¬ Rebuilds bytesHash (.of bytesHash narrow 0) narrow [endless] := by
  have hlen : endless.length = 2 ^ 33 + 1 := List.length_replicate
  refine ⟨fun f hf => ?_, distinct_endless, fun h => ?_⟩
  · rw [List.mem_singleton.mp hf, hlen]
    omega
  · have hsize : (Manifest.of bytesHash narrow 0).pageSize = 2 := pageSize_narrow
    have hharm := (apply_diff_iff_harmless (by omega) (by omega) (by omega) rfl
      (distinct_endless narrow List.mem_cons_self endless (by simp))).mp (rebuilds_cons.mp h).1
    have hchanged : 2 ^ 32 ∈ changed bytesHash (.of bytesHash narrow 0) endless := by
      refine mem_changed.mpr ⟨?_, fun hhas => ?_⟩
      · rw [hsize, lt_pageCount_iff (by omega), hlen]
        omega
      · have hnone : (Manifest.of bytesHash narrow 0).hashes[2 ^ 32]? = none := by
          refine List.getElem?_eq_none ?_
          change ((pages (pageSize narrow) narrow).map bytesHash).length ≤ 2 ^ 32
          rw [List.length_map, length_pages, pageSize_narrow]
          exact (by decide : pageCount 2 narrow ≤ 2 ^ 32)
        rw [Manifest.has, hnone] at hhas
        cases hhas
    have hpage := hharm.there (2 ^ 32) hchanged (Nat.le_refl _)
    dsimp only at hpage
    rw [hsize, page_eq_iff (by omega)] at hpage
    have hbyte := hpage (2 ^ 33) (by omega)
    rw [getElem?_resize, if_pos (by omega), endless, List.getElem?_replicate, if_pos (by omega),
      List.getElem?_eq_none (by decide : narrow.length ≤ 2 ^ 33)] at hbyte
    exact absurd (Option.some.inj hbyte) (by decide)

end Demo

end Fafo.Deltas
