import Fafo.Library.Bytes

/-! Page-level deltas of file images, and their wire format. -/
namespace Fafo.Deltas

open Bytes

abbrev File := List UInt8

/-- Smaller files always ship whole. -/
def deltaMinBytes : Nat := 64 * 1024

/-- A chain longer than this is compacted... -/
def compactChain : Nat := 16

/-- ...and so is a delta of more than this fraction of its file. -/
def compactFractionDenom : Nat := 3

/-- SQLite encodes 64 KiB as 1. -/
def pageSize (file : File) : Nat :=
  if file.length < 100 then 4096
  else
    match fromBE ((file.drop 16).take 2) with
    | 1 => 65536
    | 0 => 4096
    | n => n

def changeCounter (file : File) : Nat :=
  if file.length < 100 then 0 else fromBE ((file.drop 24).take 4)

/-- What was last shipped: a hash of each page, and the length of the chain. -/
structure Manifest where
  pageSize : Nat
  hashes : List UInt64
  chainLen : Nat

/-- The state with this counter, by the pages in which it differs. -/
structure Delta where
  counter : UInt32
  fileLen : UInt64
  pageSize : UInt32
  pages : List (UInt32 × List UInt8)
  deriving DecidableEq

section Diff

variable (hash : List UInt8 → UInt64)

def Manifest.of (file : File) (chainLen : Nat) : Manifest where
  pageSize := Deltas.pageSize file
  hashes := (pages (Deltas.pageSize file) file).map hash
  chainLen := chainLen

/-- The manifest has the page. -/
def Manifest.has (m : Manifest) (file : File) (i : Nat) : Prop :=
  m.hashes[i]? = some (hash (page m.pageSize file i))

instance (m : Manifest) (file : File) (i : Nat) : Decidable (m.has hash file i) :=
  inferInstanceAs (Decidable (_ = _))

/-- The pages to ship. -/
def changed (m : Manifest) (file : File) : List Nat :=
  (List.range (pageCount m.pageSize file)).filter fun i => ¬ m.has hash file i

/-- The delta to a file, and the manifest that describes it. -/
def diff (m : Manifest) (file : File) : Delta × Manifest :=
  ({ counter := UInt32.ofNat (changeCounter file)
     fileLen := UInt64.ofNat file.length
     pageSize := UInt32.ofNat m.pageSize
     pages := (changed hash m file).map fun i => (UInt32.ofNat i, page m.pageSize file i) },
   { m with hashes := (pages m.pageSize file).map hash })

end Diff

/-- Cut or fill up the file, then overwrite the pages. -/
def apply (file : File) (delta : Delta) : File :=
  delta.pages.foldl
    (fun file (pageNo, bytes) =>
      let start := pageNo.toNat * delta.pageSize.toNat
      if start < file.length then overwrite file start bytes else file)
    (resize file delta.fileLen.toNat 0)

def encodePage (p : UInt32 × List UInt8) : List UInt8 :=
  toLE 4 p.1.toNat ++ (toLE 4 p.2.length ++ p.2)

/-- `[counter u32][file_len u64][page_size u32][n_pages u32]`, then
`[page_no u32][len u32][bytes]` for each page. -/
def encode (delta : Delta) : List UInt8 :=
  toLE 4 delta.counter.toNat ++ (toLE 8 delta.fileLen.toNat ++ (toLE 4 delta.pageSize.toNat ++
    (toLE 4 delta.pages.length ++ delta.pages.flatMap encodePage)))

inductive Corrupt where
  | tooShort
  | pageCount
  | pageHeader
  | page
  deriving DecidableEq, Repr

def Corrupt.message : Corrupt → String
  | tooShort => "delta too short"
  | pageCount => "delta page count exceeds payload"
  | pageHeader => "truncated delta page header"
  | page => "truncated delta page"

def decodePages : Nat → List UInt8 → Except Corrupt (List (UInt32 × List UInt8))
  | 0, _ => .ok []
  | n + 1, bytes =>
    if bytes.length < 8 then .error .pageHeader
    else
      let len := fromLE ((bytes.drop 4).take 4)
      let body := bytes.drop 8
      if body.length < len then .error .page
      else
        (decodePages n (body.drop len)).map
          ((UInt32.ofNat (fromLE (bytes.take 4)), body.take len) :: ·)

/-- A page costs at least its header, so a count that the bytes cannot hold is refused at once. -/
def decode (bytes : List UInt8) : Except Corrupt Delta :=
  if bytes.length < 20 then .error .tooShort
  else
    let n := fromLE ((bytes.drop 16).take 4)
    if (bytes.length - 20) / 8 < n then .error .pageCount
    else
      (decodePages n (bytes.drop 20)).map fun pages =>
        { counter := UInt32.ofNat (fromLE (bytes.take 4))
          fileLen := UInt64.ofNat (fromLE ((bytes.drop 4).take 8))
          pageSize := UInt32.ofNat (fromLE ((bytes.drop 12).take 4))
          pages := pages }

theorem changeCounter_lt (file : File) : changeCounter file < 2 ^ 32 := by
  rw [changeCounter]
  split_ifs with h
  · decide
  · have hlt := fromBE_lt ((file.drop 24).take 4)
    have hlen : ((file.drop 24).take 4).length = 4 := by
      simp only [List.length_take, List.length_drop]
      omega
    rwa [hlen] at hlt

theorem pageSize_pos (file : File) : 0 < pageSize file := by
  rw [pageSize]
  split_ifs with h
  · decide
  · split
    · decide
    · decide
    · next n _ hn => exact Nat.pos_of_ne_zero hn

theorem pageSize_le (file : File) : pageSize file ≤ 65536 := by
  rw [pageSize]
  split_ifs with h
  · decide
  · have hlt := fromBE_lt ((file.drop 16).take 2)
    have hlen : ((file.drop 16).take 2).length = 2 := by
      simp only [List.length_take, List.length_drop]
      omega
    rw [hlen] at hlt
    split <;> omega

theorem mem_changed {hash : List UInt8 → UInt64} {m : Manifest} {file : File} {i : Nat} :
    i ∈ changed hash m file ↔ i < pageCount m.pageSize file ∧ ¬ m.has hash file i := by
  simp [changed]

/-- The first field of a string, and what follows it. -/
theorem take_toLE (k n : Nat) (rest : List UInt8) : (toLE k n ++ rest).take k = toLE k n :=
  List.take_left' (length_toLE k n)

theorem drop_toLE (k j n : Nat) (rest : List UInt8) :
    (toLE k n ++ rest).drop (k + j) = rest.drop j := by
  rw [← List.drop_drop, List.drop_left' (length_toLE k n)]

theorem fromLE_u32 (n : UInt32) : UInt32.ofNat (fromLE (toLE 4 n.toNat)) = n := by
  rw [fromLE_toLE n.toNat_lt, UInt32.ofNat_toNat]

theorem fromLE_u64 (n : UInt64) : UInt64.ofNat (fromLE (toLE 8 n.toNat)) = n := by
  rw [fromLE_toLE n.toNat_lt, UInt64.ofNat_toNat]

/-- The pages are read back, whatever follows them. -/
theorem decodePages_append (pages : List (UInt32 × List UInt8)) (rest : List UInt8)
    (h : ∀ p ∈ pages, p.2.length < 2 ^ 32) :
    decodePages pages.length (pages.flatMap encodePage ++ rest) = .ok pages := by
  induction pages with
  | nil => rfl
  | cons p pages ih =>
    obtain ⟨n, bytes⟩ := p
    obtain ⟨hlen, hrest⟩ := List.forall_mem_cons.mp h
    have hbytes : ((n, bytes) :: pages).flatMap encodePage ++ rest =
        toLE 4 n.toNat ++ (toLE 4 bytes.length ++
          (bytes ++ (pages.flatMap encodePage ++ rest))) := by
      simp [encodePage]
    have hlong : ¬ (((n, bytes) :: pages).flatMap encodePage ++ rest).length < 8 := by
      rw [hbytes]
      simp only [List.length_append, length_toLE]
      omega
    rw [List.length_cons, decodePages, if_neg hlong, hbytes, drop_toLE 4 4, drop_toLE 4 0,
      take_toLE, List.drop_zero, take_toLE, fromLE_u32, fromLE_toLE hlen, drop_toLE 4 0]
    have hfits : ¬ (bytes ++ (pages.flatMap encodePage ++ rest)).length < bytes.length := by simp
    simp only [List.drop_zero]
    rw [if_neg hfits, List.drop_left, List.take_left, ih hrest]
    rfl

theorem length_encodePage (p : UInt32 × List UInt8) : (encodePage p).length = 8 + p.2.length := by
  simp only [encodePage, List.length_append, length_toLE]
  omega

theorem length_encodePages (pages : List (UInt32 × List UInt8)) :
    8 * pages.length ≤ (pages.flatMap encodePage).length := by
  induction pages with
  | nil => simp
  | cons p pages ih =>
    rw [List.flatMap_cons, List.length_append, List.length_cons, length_encodePage]
    omega

theorem length_encode (delta : Delta) :
    (encode delta).length = 20 + (delta.pages.flatMap encodePage).length := by
  simp only [encode, List.length_append, length_toLE]
  omega

/-- What was encoded is decoded, if its page count and page lengths fit their fields, whatever
follows it. -/
theorem decode_append (delta : Delta) (rest : List UInt8) (hpages : delta.pages.length < 2 ^ 32)
    (hlens : ∀ p ∈ delta.pages, p.2.length < 2 ^ 32) :
    decode (encode delta ++ rest) = .ok delta := by
  obtain ⟨counter, fileLen, size, pages⟩ := delta
  generalize hbytes : encode ⟨counter, fileLen, size, pages⟩ ++ rest = bytes
  have hfields : bytes = toLE 4 counter.toNat ++ (toLE 8 fileLen.toNat ++ (toLE 4 size.toNat ++
      (toLE 4 pages.length ++ (pages.flatMap encodePage ++ rest)))) := by
    rw [← hbytes, encode]
    simp only [List.append_assoc]
  have hlen : bytes.length = 20 + (pages.flatMap encodePage).length + rest.length := by
    rw [← hbytes, List.length_append, length_encode]
  have hcount : ¬ (bytes.length - 20) / 8 < pages.length := by
    have hroom := length_encodePages pages
    omega
  have hn : fromLE (toLE 4 pages.length) = pages.length := fromLE_toLE hpages
  have h4 : bytes.drop 4 = toLE 8 fileLen.toNat ++ (toLE 4 size.toNat ++
      (toLE 4 pages.length ++ (pages.flatMap encodePage ++ rest))) := by
    rw [hfields, drop_toLE 4 0, List.drop_zero]
  have h12 : bytes.drop 12 = toLE 4 size.toNat ++
      (toLE 4 pages.length ++ (pages.flatMap encodePage ++ rest)) := by
    rw [hfields, drop_toLE 4 8, drop_toLE 8 0, List.drop_zero]
  have h16 : bytes.drop 16 = toLE 4 pages.length ++ (pages.flatMap encodePage ++ rest) := by
    rw [hfields, drop_toLE 4 12, drop_toLE 8 4, drop_toLE 4 0, List.drop_zero]
  have h20 : bytes.drop 20 = pages.flatMap encodePage ++ rest := by
    rw [hfields, drop_toLE 4 16, drop_toLE 8 8, drop_toLE 4 4, drop_toLE 4 0, List.drop_zero]
  have h0 : bytes.take 4 = toLE 4 counter.toNat := by
    rw [hfields, take_toLE]
  rw [decode, if_neg (by omega), h16, take_toLE, hn]
  simp only [hcount, if_false]
  rw [h20, decodePages_append pages rest hlens, h0, h4, h12, take_toLE, take_toLE, fromLE_u32,
    fromLE_u64, fromLE_u32]
  rfl

theorem decode_encode (delta : Delta) (hpages : delta.pages.length < 2 ^ 32)
    (hlens : ∀ p ∈ delta.pages, p.2.length < 2 ^ 32) : decode (encode delta) = .ok delta := by
  have hall := decode_append delta [] hpages hlens
  rwa [List.append_nil] at hall

theorem toNat_ofNat_u32 {n : Nat} (h : n < 2 ^ 32) : (UInt32.ofNat n).toNat = n := by
  rw [UInt32.toNat_ofNat']
  exact Nat.mod_eq_of_lt h

/-- Write pages of a file over another, each at the place that its index has as a u32. -/
def stamp (size : Nat) (new : File) (is : List Nat) (file : File) : File :=
  is.foldl (fun file i => overwrite file (i % 2 ^ 32 * size) (page size new i)) file

/-- Applying a delta stamps the changed pages on the file, cut or filled up to its new length. -/
theorem apply_diff_stamp (hash : List UInt8 → UInt64) {m : Manifest} (old : File) {new : File}
    (hfit : m.pageSize < 2 ^ 32) (hlen : new.length < 2 ^ 64) :
    apply old (diff hash m new).1 =
      stamp m.pageSize new (changed hash m new) (resize old new.length 0) := by
  have hfile : (UInt64.ofNat new.length).toNat = new.length := by
    rw [UInt64.toNat_ofNat']
    exact Nat.mod_eq_of_lt hlen
  simp only [apply, diff, stamp, List.foldl_map, hfile, toNat_ofNat_u32 hfit]
  refine List.foldl_ext _ _ _ fun file i _ => ?_
  have hindex : (UInt32.ofNat i).toNat = i % 2 ^ 32 := UInt32.toNat_ofNat'
  rw [hindex]
  split_ifs with h
  · rfl
  · rw [overwrite_past (by omega)]

theorem stamp_of_lt {size : Nat} {new : File} {is : List Nat} (h : ∀ i ∈ is, i < 2 ^ 32)
    (file : File) : stamp size new is file =
      is.foldl (fun file i => overwrite file (i * size) (page size new i)) file := by
  refine List.foldl_ext _ _ _ fun file i hi => ?_
  rw [Nat.mod_eq_of_lt (h i hi)]

/-- Applying a delta writes the changed pages over the file, cut or filled up to its new length. -/
theorem apply_diff (hash : List UInt8 → UInt64) {m : Manifest} (old : File) {new : File}
    (hfit : m.pageSize < 2 ^ 32) (hlen : new.length < 2 ^ 64)
    (hcount : pageCount m.pageSize new ≤ 2 ^ 32) :
    apply old (diff hash m new).1 = (changed hash m new).foldl
      (fun file i => overwrite file (i * m.pageSize) (page m.pageSize new i))
      (resize old new.length 0) := by
  rw [apply_diff_stamp hash old hfit hlen, stamp_of_lt]
  intro i hi
  have hi' : i < pageCount m.pageSize new := (mem_changed.mp hi).1
  omega

/-- A delta leads from one file to the other exactly when they agree, once the first is cut or
filled up, on the pages that the manifest has. -/
theorem apply_diff_eq_iff (hash : List UInt8 → UInt64) {m : Manifest} {old new : File}
    (hsize : 0 < m.pageSize) (hfit : m.pageSize < 2 ^ 32) (hlen : new.length < 2 ^ 64)
    (hcount : pageCount m.pageSize new ≤ 2 ^ 32) :
    apply old (diff hash m new).1 = new ↔ ∀ i < pageCount m.pageSize new, m.has hash new i →
      page m.pageSize (resize old new.length 0) i = page m.pageSize new i := by
  have hresize : (resize old new.length 0).length = new.length := length_resize old _ 0
  have hinside : ∀ i ∈ changed hash m new, i * m.pageSize < new.length := fun i hi =>
    (lt_pageCount_iff hsize).mp (mem_changed.mp hi).1
  rw [apply_diff hash old hfit hlen hcount, overwrite_pages_eq_iff hsize _ hresize hinside]
  constructor
  · intro h i hi hhas
    exact h i fun hmem => (mem_changed.mp hmem).2 hhas
  · intro h i hi
    by_cases hin : i < pageCount m.pageSize new
    · exact h i hin (Decidable.byContradiction fun hhas => hi (mem_changed.mpr ⟨hin, hhas⟩))
    · rw [lt_pageCount_iff hsize] at hin
      rw [page_eq_nil (by omega), page_eq_nil (by omega)]

end Fafo.Deltas
