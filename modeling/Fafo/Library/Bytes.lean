import Mathlib.Data.List.Basic
import Mathlib.Tactic.SplitIfs
import Mathlib.Algebra.Group.Nat.Defs

/-! Fixed-width integers in byte strings, and strings taken page by page. -/
namespace Bytes

/-- The low `k` bytes of a number, least significant first. -/
def toLE : Nat → Nat → List UInt8
  | 0, _ => []
  | k + 1, n => UInt8.ofNat n :: toLE k (n / 256)

def fromLE : List UInt8 → Nat
  | [] => 0
  | b :: bs => b.toNat + 256 * fromLE bs

def fromBE (bs : List UInt8) : Nat := fromLE bs.reverse

@[simp] theorem length_toLE (k n : Nat) : (toLE k n).length = k := by
  induction k generalizing n with
  | zero => rfl
  | succ k ih => simp [toLE, ih]

theorem fromLE_toLE {k n : Nat} (h : n < 256 ^ k) : fromLE (toLE k n) = n := by
  induction k generalizing n with
  | zero =>
    have hn : n = 0 := by omega
    subst hn
    rfl
  | succ k ih =>
    have hdiv : n / 256 < 256 ^ k := by
      rw [Nat.pow_succ] at h
      omega
    have hmod : (UInt8.ofNat n).toNat = n % 256 := by simp
    rw [toLE, fromLE, ih hdiv, hmod]
    omega

theorem fromLE_lt (bs : List UInt8) : fromLE bs < 256 ^ bs.length := by
  induction bs with
  | nil => simp [fromLE]
  | cons b bs ih =>
    have hb : b.toNat < 256 := b.toNat_lt
    rw [fromLE, List.length_cons, Nat.pow_succ]
    omega

/-- A string is the bytes of its number. -/
theorem toLE_fromLE (bs : List UInt8) : toLE bs.length (fromLE bs) = bs := by
  induction bs with
  | nil => rfl
  | cons b bs ih =>
    have hb : b.toNat < 256 := b.toNat_lt
    have hlow : UInt8.ofNat (b.toNat + 256 * fromLE bs) = b := by
      refine UInt8.toNat_inj.mp ?_
      rw [UInt8.toNat_ofNat']
      omega
    have hhigh : (b.toNat + 256 * fromLE bs) / 256 = fromLE bs := by omega
    rw [List.length_cons, fromLE, toLE, hlow, hhigh, ih]

theorem toLE_fromLE_take {k : Nat} {bs : List UInt8} (h : k ≤ bs.length) :
    toLE k (fromLE (bs.take k)) = bs.take k := by
  have hlen : (bs.take k).length = k := List.length_take_of_le h
  have hall := toLE_fromLE (bs.take k)
  rwa [hlen] at hall

theorem fromLE_take_lt (k : Nat) (bs : List UInt8) : fromLE (bs.take k) < 256 ^ k := by
  refine Nat.lt_of_lt_of_le (fromLE_lt _) (Nat.pow_le_pow_right (by omega) ?_)
  rw [List.length_take]
  omega

theorem fromBE_lt (bs : List UInt8) : fromBE bs < 256 ^ bs.length := by
  simpa [fromBE] using fromLE_lt bs.reverse

/-- The low `k` bytes of a number, most significant first. -/
def toBE (k n : Nat) : List UInt8 := (toLE k n).reverse

@[simp] theorem length_toBE (k n : Nat) : (toBE k n).length = k := by
  rw [toBE, List.length_reverse, length_toLE]

theorem fromBE_toBE {k n : Nat} (h : n < 256 ^ k) : fromBE (toBE k n) = n := by
  rw [fromBE, toBE, List.reverse_reverse, fromLE_toLE h]

theorem toBE_fromBE (bs : List UInt8) : toBE bs.length (fromBE bs) = bs := by
  have hall := toLE_fromLE bs.reverse
  rw [List.length_reverse] at hall
  rw [toBE, fromBE, hall, List.reverse_reverse]

variable {α : Type} {size i k n start : Nat} {xs ys : List α}

/-- Page `i`; the last one may be short. -/
def page (size : Nat) (xs : List α) (i : Nat) : List α := (xs.drop (i * size)).take size

def pageCount (size : Nat) (xs : List α) : Nat := (xs.length + size - 1) / size

def pages (size : Nat) (xs : List α) : List (List α) :=
  (List.range (pageCount size xs)).map (page size xs)

/-- Cut, or filled up, to length `n`. -/
def resize (xs : List α) (n : Nat) (fill : α) : List α :=
  xs.take n ++ List.replicate (n - xs.length) fill

/-- Write `ys` from `start` on, as far as it fits. -/
def overwrite (xs : List α) (start : Nat) (ys : List α) : List α :=
  xs.take start ++ ys.take (xs.length - start) ++ xs.drop (start + ys.length)

@[simp] theorem length_pages (size : Nat) (xs : List α) :
    (pages size xs).length = pageCount size xs := by
  simp [pages]

theorem getElem?_pages : (pages size xs)[i]? =
    if i < pageCount size xs then some (page size xs i) else none := by
  rw [pages, List.getElem?_map]
  split_ifs with h
  · rw [List.getElem?_range h]
    rfl
  · rw [List.getElem?_eq_none (by simpa using h)]
    rfl

theorem mem_pages {ys : List α} :
    ys ∈ pages size xs ↔ ∃ i < pageCount size xs, page size xs i = ys := by
  simp [pages]

@[simp] theorem length_resize (xs : List α) (n : Nat) (fill : α) :
    (resize xs n fill).length = n := by
  simp only [resize, List.length_append, List.length_take, List.length_replicate]
  omega

theorem length_page (size : Nat) (xs : List α) (i : Nat) :
    (page size xs i).length = min size (xs.length - i * size) := by
  simp [page]

theorem lt_pageCount_iff (hsize : 0 < size) : i < pageCount size xs ↔ i * size < xs.length := by
  rw [pageCount, Nat.lt_iff_add_one_le, Nat.le_div_iff_mul_le hsize, Nat.add_one_mul]
  omega

theorem getElem?_page : (page size xs i)[k]? = if k < size then xs[i * size + k]? else none := by
  rw [page, List.getElem?_take]
  split_ifs with h
  · rw [List.getElem?_drop]
  · rfl

theorem page_eq_nil (h : xs.length ≤ i * size) : page size xs i = [] := by
  rw [page, List.drop_eq_nil_of_le h, List.take_nil]

theorem overwrite_past (h : xs.length ≤ start) : overwrite xs start ys = xs := by
  rw [overwrite, List.take_of_length_le h, Nat.sub_eq_zero_of_le h, List.take_zero,
    List.drop_eq_nil_of_le (by omega), List.append_nil, List.append_nil]

theorem length_overwrite (hstart : start < xs.length) :
    (overwrite xs start ys).length = xs.length := by
  simp only [overwrite, List.length_append, List.length_take, List.length_drop]
  omega

/-- The pages of two strings agree where the strings agree on them. -/
theorem page_eq_iff (hsize : 0 < size) :
    page size xs i = page size ys i ↔ ∀ k, k / size = i → xs[k]? = ys[k]? := by
  constructor
  · rintro h k rfl
    have hmod : k % size < size := Nat.mod_lt k hsize
    have hk : k / size * size + k % size = k := Nat.div_add_mod' k size
    have hget : (page size xs (k / size))[k % size]? = (page size ys (k / size))[k % size]? := by
      rw [h]
    rwa [getElem?_page, getElem?_page, if_pos hmod, if_pos hmod, hk] at hget
  · intro h
    refine List.ext_getElem? fun k => ?_
    rw [getElem?_page, getElem?_page]
    split_ifs with hk
    · refine h _ ?_
      rw [Nat.mul_comm, Nat.mul_add_div hsize, Nat.div_eq_of_lt hk, Nat.add_zero]
    · rfl

theorem getElem?_resize {fill : α} : (resize xs n fill)[k]? =
    if k < n then some (xs[k]?.getD fill) else none := by
  rw [resize, List.getElem?_append, List.length_take]
  split_ifs with hlow hn hn
  · rw [List.getElem?_take, if_pos hn, List.getElem?_eq_getElem (by omega)]
    rfl
  · omega
  · rw [List.getElem?_replicate, if_pos (by omega), List.getElem?_eq_none (by omega)]
    rfl
  · rw [List.getElem?_eq_none]
    simp only [List.length_replicate]
    omega

/-- Cutting or filling up a string to the length of another keeps the pages they share. -/
theorem page_resize (hsize : 0 < size) {fill : α} (h : page size xs i = page size ys i) :
    page size (resize xs ys.length fill) i = page size ys i := by
  rw [page_eq_iff hsize] at h ⊢
  intro k hk
  rw [getElem?_resize]
  split_ifs with hlt
  · rw [h k hk, List.getElem?_eq_getElem hlt]
    rfl
  · rw [List.getElem?_eq_none (by omega)]

theorem length_le_pageCount (hsize : 0 < size) : xs.length ≤ pageCount size xs * size := by
  by_contra h
  exact absurd ((lt_pageCount_iff hsize).mpr (by omega)) (Nat.lt_irrefl (pageCount size xs))

/-- Writing a page of one string over the same page of another that is as long. -/
theorem getElem?_overwrite_page (hsize : 0 < size) (hlen : xs.length = ys.length)
    (hi : i * size < xs.length) :
    (overwrite xs (i * size) (page size ys i))[k]? = if k / size = i then ys[k]? else xs[k]? := by
  have hpage : (page size ys i).length = min size (xs.length - i * size) := by
    rw [length_page, hlen]
  have hfits : (page size ys i).take (xs.length - i * size) = page size ys i :=
    List.take_of_length_le (by omega)
  have hdiv : k / size = i ↔ i * size ≤ k ∧ k < i * size + size := by
    rw [Nat.div_eq_iff hsize]
    omega
  rw [overwrite, hfits, List.append_assoc, List.getElem?_append, List.length_take,
    List.getElem?_append, List.getElem?_drop, hpage]
  by_cases hlow : k < i * size
  · rw [if_pos (by omega), if_neg (by omega), List.getElem?_take, if_pos hlow]
  · rw [if_neg (by omega), Nat.min_eq_left (by omega)]
    by_cases hin : k < i * size + size
    · rw [if_pos (hdiv.mpr ⟨by omega, hin⟩)]
      split_ifs with hshort
      · rw [getElem?_page, if_pos (by omega)]
        congr 1
        omega
      · rw [List.getElem?_eq_none (by omega), List.getElem?_eq_none (by omega)]
    · rw [if_neg (by omega), if_neg (by omega)]
      by_cases hend : k < xs.length
      · congr 1
        omega
      · rw [List.getElem?_eq_none (by omega), List.getElem?_eq_none (by omega)]

theorem length_overwrite_le (start : Nat) : (overwrite xs start ys).length = xs.length := by
  by_cases hstart : start < xs.length
  · exact length_overwrite hstart
  · rw [overwrite_past (by omega)]

/-- Writing no more than one page leaves the other pages as they are. -/
theorem getElem?_overwrite_of_ne (hsize : 0 < size) (hys : ys.length ≤ size) (hk : k / size ≠ i) :
    (overwrite xs (i * size) ys)[k]? = xs[k]? := by
  have hdiv : k / size = i ↔ i * size ≤ k ∧ k < i * size + size := by
    rw [Nat.div_eq_iff hsize]
    omega
  by_cases hpast : xs.length ≤ i * size
  · rw [overwrite_past hpast]
  · rw [overwrite, List.append_assoc, List.getElem?_append, List.length_take]
    split_ifs with hlow
    · rw [List.getElem?_take, if_pos (by omega)]
    · rw [List.getElem?_append_right (by rw [List.length_take]; omega), List.getElem?_drop,
        List.length_take]
      by_cases hfits : i * size + ys.length ≤ xs.length
      · congr 1
        omega
      · rw [List.getElem?_eq_none (by omega), List.getElem?_eq_none (by omega)]

/-- Writing some of the pages of a string that is as long. -/
theorem getElem?_overwrite_pages (hsize : 0 < size) (is : List Nat) (hlen : xs.length = ys.length)
    (his : ∀ i ∈ is, i * size < ys.length) :
    (is.foldl (fun zs i => overwrite zs (i * size) (page size ys i)) xs)[k]? =
      if k / size ∈ is then ys[k]? else xs[k]? := by
  induction is generalizing xs with
  | nil => simp
  | cons i is ih =>
    obtain ⟨hi, his⟩ := List.forall_mem_cons.mp his
    have hnext : (overwrite xs (i * size) (page size ys i)).length = ys.length := by
      rw [length_overwrite (hlen ▸ hi), hlen]
    rw [List.foldl_cons, ih hnext his, getElem?_overwrite_page hsize hlen (hlen ▸ hi)]
    by_cases hmem : k / size ∈ is
    · simp [hmem]
    · simp [hmem]

/-- A string is as it should be, after some of its pages are written, exactly when it already was
on the others. -/
theorem overwrite_pages_eq_iff (hsize : 0 < size) (is : List Nat) (hlen : xs.length = ys.length)
    (his : ∀ i ∈ is, i * size < ys.length) :
    is.foldl (fun zs i => overwrite zs (i * size) (page size ys i)) xs = ys ↔
      ∀ i, i ∉ is → page size xs i = page size ys i := by
  constructor
  · rintro h i hi
    refine (page_eq_iff hsize).mpr ?_
    rintro k rfl
    have hget := getElem?_overwrite_pages (k := k) hsize is hlen his
    rw [h, if_neg hi] at hget
    exact hget.symm
  · intro h
    refine List.ext_getElem? fun k => ?_
    rw [getElem?_overwrite_pages hsize is hlen his]
    split_ifs with hk
    · rfl
    · exact (page_eq_iff hsize).mp (h _ hk) k rfl

end Bytes
