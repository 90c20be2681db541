import Mathlib.Data.List.Chain
import Fafo.EntryWire

/-! Hex text: what is decoded from a string of any characters, slice by slice of its bytes. -/
namespace Fafo.HexText

open EntryWire (utf8)

/-- `{b:02x}`: two digits. -/
def hexByte (b : UInt8) : List Char :=
  [Nat.digitChar (b.toNat / 16), Nat.digitChar (b.toNat % 16)]

def encode (bytes : List UInt8) : String := String.ofList (bytes.flatMap hexByte)

/-- `to_digit(16)` of a code point. -/
def toDigit (n : Nat) : Option Nat :=
  if 48 ≤ n ∧ n ≤ 57 then some (n - 48)
  else if 97 ≤ n ∧ n ≤ 102 then some (n - 87)
  else if 65 ≤ n ∧ n ≤ 70 then some (n - 55)
  else none

def plus : UInt8 := 43

def minus : UInt8 := 45

/-- The digits of a number in radix 16, up to a u8. -/
def ofDigits (digits : List UInt8) : Option Nat :=
  digits.foldlM (fun acc d =>
    (toDigit d.toNat).bind fun x => if acc * 16 + x < 256 then some (acc * 16 + x) else none) 0

/-- `u8::from_str_radix(text, 16)`: a plus may stand before the digits. -/
def fromStrRadix (text : List UInt8) : Option UInt8 :=
  match text with
  | [] => none
  | [c] => if c = plus ∨ c = minus then none else (ofDigits [c]).map UInt8.ofNat
  | c :: rest => (ofDigits (if c = plus then rest else c :: rest)).map UInt8.ofNat

/-- A byte inside a character. -/
def continues (b : UInt8) : Bool := decide (128 ≤ b.toNat ∧ b.toNat < 192)

def isCharBoundary (bytes : List UInt8) (i : Nat) : Bool :=
  i == 0 || match bytes[i]? with
    | none => i == bytes.length
    | some b => !continues b

/-- `&s[start..stop]`, which panics when it would cut a character. -/
def slice (bytes : List UInt8) (start stop : Nat) : Option (List UInt8) :=
  if start ≤ stop ∧ isCharBoundary bytes start ∧ isCharBoundary bytes stop then
    some ((bytes.drop start).take (stop - start))
  else none

/-- The bytes at the indices, up to the first that is none. A slice that panics gives nothing. -/
def collect (bytes : List UInt8) : List Nat → Option (Option (List UInt8))
  | [] => some (some [])
  | i :: rest =>
    (slice bytes i (i + 2)).bind fun text =>
      match fromStrRadix text with
      | none => some none
      | some b => (collect bytes rest).map fun decoded => decoded.map (b :: ·)

/-- The outer `none` is a panic. -/
def decode (s : String) : Option (Option (List UInt8)) :=
  let bytes := utf8 s
  if bytes.length % 2 ≠ 0 then some none
  else collect bytes (List.range' 0 (bytes.length / 2) 2)

namespace Worker

def hexEncode (bytes : List UInt8) : String := encode bytes

def hexDecode (s : String) : Option (Option (List UInt8)) := decode s

end Worker

namespace Grants

def hex (bytes : List UInt8) : String := encode bytes

def unhex (s : String) : Option (Option (List UInt8)) := decode s

end Grants

def IsHex (s : String) : Prop :=
  s.toList.length % 2 = 0 ∧ ∀ c ∈ s.toList, (toDigit c.toNat).isSome

def value (c : Char) : Nat := (toDigit c.toNat).getD 0

/-- Each two digits are a byte. -/
def denoted : List Char → List UInt8
  | high :: low :: rest => UInt8.ofNat (16 * value high + value low) :: denoted rest
  | _ => []

/-- The call returns, and returns bytes exactly when the text is hex, those it denotes. -/
def Meets (decode : String → Option (Option (List UInt8))) (s : String) : Prop :=
  ∃ decoded, decode s = some decoded ∧
    ∀ bytes, decoded = some bytes ↔ IsHex s ∧ bytes = denoted s.toList

/-- The bytes go on inside a character. -/
def Inside : List UInt8 → Prop
  | [] => False
  | b :: _ => continues b = true

instance : (bytes : List UInt8) → Decidable (Inside bytes)
  | [] => inferInstanceAs (Decidable False)
  | b :: _ => inferInstanceAs (Decidable (continues b = true))

/-- `collect`, by what is left of the bytes. -/
def walk : List UInt8 → Option (Option (List UInt8))
  | a :: b :: rest =>
    if Inside rest then none
    else match fromStrRadix [a, b] with
      | none => some none
      | some byte => (walk rest).map fun decoded => decoded.map (byte :: ·)
  | _ => some (some [])

theorem isCharBoundary_iff {bytes : List UInt8} {i : Nat} (hpos : 0 < i) (hle : i ≤ bytes.length) :
    isCharBoundary bytes i = true ↔ ¬ Inside (bytes.drop i) := by
  have hzero : (i == 0) = false := by
    rw [beq_eq_false_iff_ne]
    omega
  unfold isCharBoundary
  rw [hzero, Bool.false_or]
  rcases Nat.lt_or_eq_of_le hle with hlt | rfl
  · rw [List.getElem?_eq_getElem hlt, List.drop_eq_getElem_cons hlt]
    simp [Inside]
  · rw [List.getElem?_eq_none (Nat.le_refl _), List.drop_length]
    simp [Inside]

theorem collect_eq_walk {bytes : List UInt8} {i k : Nat} (hlength : bytes.length = i + 2 * k)
    (hstart : isCharBoundary bytes i = true) :
    collect bytes (List.range' i k 2) = walk (bytes.drop i) := by
  induction k generalizing i with
  | zero =>
    rw [List.drop_eq_nil_of_le (by omega)]
    rfl
  | succ k ih =>
    have hi : i < bytes.length := by omega
    have hi' : i + 1 < bytes.length := by omega
    obtain ⟨a, b, hdrop⟩ : ∃ a b, bytes.drop i = a :: b :: bytes.drop (i + 2) :=
      ⟨bytes[i], bytes[i + 1], by
        rw [List.drop_eq_getElem_cons hi, List.drop_eq_getElem_cons hi']⟩
    have hstop : isCharBoundary bytes (i + 2) = true ↔ ¬ Inside (bytes.drop (i + 2)) :=
      isCharBoundary_iff (by omega) (by omega)
    rw [List.range'_succ, collect, hdrop, walk]
    by_cases hin : Inside (bytes.drop (i + 2))
    · have hcut : slice bytes i (i + 2) = none := by
        refine if_neg fun h => ?_
        exact hstop.mp h.2.2 hin
      rw [hcut, if_pos hin]
      rfl
    · have htext : slice bytes i (i + 2) = some [a, b] := by
        rw [slice, if_pos ⟨by omega, hstart, hstop.mpr hin⟩, hdrop, Nat.add_sub_cancel_left]
        rfl
      rw [htext, if_neg hin, Option.bind_some, ih (by omega) (hstop.mpr hin)]

theorem decode_eq {s : String} (h : (utf8 s).length % 2 = 0) : decode s = walk (utf8 s) := by
  rw [decode, if_neg (by omega)]
  exact collect_eq_walk (by omega) rfl

theorem toDigit_lt {n x : Nat} (h : toDigit n = some x) : x < 16 := by
  unfold toDigit at h
  split_ifs at h <;> cases h <;> omega

theorem lt_of_toDigit {n : Nat} (h : (toDigit n).isSome) : n < 128 := by
  unfold toDigit at h
  split_ifs at h
  · omega
  · omega
  · omega
  · cases h

theorem ofDigits_one (b : UInt8) : ofDigits [b] = toDigit b.toNat := by
  cases hb : toDigit b.toNat with
  | none => simp [ofDigits, hb]
  | some y =>
    have hy := toDigit_lt hb
    have hfit : y < 256 := by omega
    simp [ofDigits, hb, hfit]

theorem ofDigits_two (a b : UInt8) : ofDigits [a, b] =
    (toDigit a.toNat).bind fun x => (toDigit b.toNat).map fun y => 16 * x + y := by
  cases ha : toDigit a.toNat with
  | none => simp [ofDigits, ha]
  | some x =>
    cases hb : toDigit b.toNat with
    | none => simp [ofDigits, ha, hb]
    | some y =>
      have hx := toDigit_lt ha
      have hy := toDigit_lt hb
      have hfit : x < 256 := by omega
      have hfit' : 16 * x + y < 256 := by omega
      simp [ofDigits, ha, hb, hfit, hfit', Nat.mul_comm x]

/-- A plus is read as a leading zero. -/
theorem fromStrRadix_two (a b : UInt8) : fromStrRadix [a, b] =
    (if a = plus then some 0 else toDigit a.toNat).bind fun x =>
      (toDigit b.toNat).map fun y => UInt8.ofNat (16 * x + y) := by
  show (ofDigits (if a = plus then [b] else [a, b])).map UInt8.ofNat = _
  split_ifs with hplus
  · rw [ofDigits_one, Option.bind_some]
    simp
  · rw [ofDigits_two, Option.map_bind]
    simp [Function.comp_def]

theorem isSome_fromStrRadix (a b : UInt8) : (fromStrRadix [a, b]).isSome ↔
    (a = plus ∨ (toDigit a.toNat).isSome) ∧ (toDigit b.toNat).isSome := by
  rw [fromStrRadix_two]
  by_cases hplus : a = plus
  · simp [hplus]
  · cases ha : toDigit a.toNat with
    | none => simp [hplus]
    | some x => simp [hplus]

/-- The bytes two by two. -/
def pairs : List UInt8 → List (UInt8 × UInt8)
  | a :: b :: rest => (a, b) :: pairs rest
  | _ => []

/-- Each pair of bytes is read as a number. -/
def Numbers (bytes : List UInt8) : Prop := ∀ p ∈ pairs bytes, (fromStrRadix [p.1, p.2]).isSome

/-- The first pair that is not a number ends with a character. -/
def Stopped (bytes : List UInt8) : Prop :=
  ∃ before a b after, bytes = before ++ a :: b :: after ∧ before.length % 2 = 0 ∧
    Numbers before ∧ fromStrRadix [a, b] = none ∧ ¬ Inside after

/-- Nothing goes on after a character of one byte. -/
def Whole (bytes : List UInt8) : Prop :=
  bytes.IsChain fun a b => a.toNat < 128 → continues b = false

theorem Whole.not_inside {a b : UInt8} {rest : List UInt8} (h : Whole (a :: b :: rest))
    (hb : b.toNat < 128) : ¬ Inside rest := by
  cases rest with
  | nil => exact id
  | cons c rest =>
    obtain ⟨_, h⟩ := List.isChain_cons_cons.mp h
    obtain ⟨hnext, _⟩ := List.isChain_cons_cons.mp h
    intro hin
    rw [Inside, hnext hb] at hin
    cases hin

theorem Whole.rest {a b : UInt8} {rest : List UInt8} (h : Whole (a :: b :: rest)) : Whole rest := by
  cases rest with
  | nil => exact .nil
  | cons c rest => exact (List.isChain_cons_cons.mp (List.isChain_cons_cons.mp h).2).2

theorem Whole.not_inside_of_number {a b : UInt8} {rest : List UInt8} (h : Whole (a :: b :: rest))
    (hnumber : (fromStrRadix [a, b]).isSome) : ¬ Inside rest :=
  h.not_inside (lt_of_toDigit ((isSome_fromStrRadix a b).mp hnumber).2)

theorem numbers_cons {a b : UInt8} {rest : List UInt8} :
    Numbers (a :: b :: rest) ↔ (fromStrRadix [a, b]).isSome ∧ Numbers rest := by
  rw [Numbers, pairs, List.forall_mem_cons]
  rfl

/-- The bytes that the pairs are read as. -/
def numbers (bytes : List UInt8) : List UInt8 :=
  (pairs bytes).filterMap fun p => fromStrRadix [p.1, p.2]

theorem walk_of_numbers {bytes : List UInt8} (hwhole : Whole bytes) (h : Numbers bytes) :
    walk bytes = some (some (numbers bytes)) := by
  induction bytes using walk.induct with
  | case1 a b rest hin =>
    exact absurd hin (hwhole.not_inside_of_number (numbers_cons.mp h).1)
  | case2 a b rest hin hnone =>
    have hsome := (numbers_cons.mp h).1
    rw [hnone] at hsome
    cases hsome
  | case3 a b rest hin byte hbyte ih =>
    rw [walk, if_neg hin, hbyte, numbers, pairs, List.filterMap_cons]
    simp only [hbyte]
    rw [ih hwhole.rest (numbers_cons.mp h).2]
    rfl
  | case4 bytes hshort =>
    rw [walk, numbers, pairs]
    · rfl
    · exact hshort
    · exact hshort

/-- The first pair is a number, so the first that is not is among the others. -/
theorem stopped_cons {a b : UInt8} {rest : List UInt8}
    (h : (fromStrRadix [a, b]).isSome) : Stopped (a :: b :: rest) ↔ Stopped rest := by
  constructor
  · rintro ⟨before, c, d, after, heq, heven, hnumbers, hnone, hend⟩
    match before, heven with
    | [], _ =>
      obtain ⟨rfl, rfl, rfl⟩ : a = c ∧ b = d ∧ rest = after := by simpa using heq
      rw [hnone] at h
      cases h
    | x :: y :: before, heven =>
      obtain ⟨rfl, rfl, rfl⟩ : a = x ∧ b = y ∧ rest = before ++ c :: d :: after := by
        simpa using heq
      refine ⟨before, c, d, after, rfl, ?_, (numbers_cons.mp hnumbers).2, hnone, hend⟩
      simp only [List.length_cons] at heven
      omega
  · rintro ⟨before, c, d, after, rfl, heven, hnumbers, hnone, hend⟩
    refine ⟨a :: b :: before, c, d, after, rfl, ?_, numbers_cons.mpr ⟨h, hnumbers⟩, hnone, hend⟩
    simp only [List.length_cons]
    omega

theorem walk_none_iff {bytes : List UInt8} (hwhole : Whole bytes) :
    walk bytes = some none ↔ Stopped bytes := by
  induction bytes using walk.induct with
  | case1 a b rest hin =>
    have hnone : ¬ (fromStrRadix [a, b]).isSome := fun h => hwhole.not_inside_of_number h hin
    rw [walk, if_pos hin]
    constructor
    · intro h
      cases h
    · rintro ⟨before, c, d, after, heq, heven, hnumbers, _, hend⟩
      match before, heven with
      | [], _ =>
        obtain ⟨rfl, rfl, rfl⟩ : a = c ∧ b = d ∧ rest = after := by simpa using heq
        exact absurd hin hend
      | x :: y :: before, _ =>
        obtain ⟨rfl, rfl, _⟩ : a = x ∧ b = y ∧ rest = before ++ c :: d :: after := by
          simpa using heq
        exact absurd (numbers_cons.mp hnumbers).1 hnone
  | case2 a b rest hin hnone =>
    rw [walk, if_neg hin, hnone]
    exact ⟨fun _ => ⟨[], a, b, rest, rfl, rfl, fun p hp => absurd hp List.not_mem_nil, hnone, hin⟩,
      fun _ => rfl⟩
  | case3 a b rest hin byte hbyte ih =>
    have hsome : (fromStrRadix [a, b]).isSome := by
      rw [hbyte]
      rfl
    rw [stopped_cons hsome, ← ih hwhole.rest, walk, if_neg hin, hbyte]
    simp
  | case4 bytes hshort =>
    have hwalk : walk bytes = some (some []) := by
      rw [walk]
      exact hshort
    rw [hwalk]
    constructor
    · intro h
      cases h
    · rintro ⟨before, c, d, after, rfl, heven, _⟩
      match before, heven with
      | [], _ => exact absurd rfl (hshort c d after)
      | x :: y :: before, _ => exact absurd rfl (hshort x y (before ++ c :: d :: after))

theorem utf8_eq (s : String) : utf8 s = s.toList.flatMap String.utf8EncodeChar := by
  rw [utf8, String.toUTF8, ← String.utf8Encode_toList, List.utf8Encode,
    List.toList_data_toByteArray]

theorem encodeChar_of_lt {c : Char} (h : c.toNat < 128) :
    String.utf8EncodeChar c = [UInt8.ofNat c.toNat] := by
  have hle : c.val.toNat ≤ 0x7f := by
    have : c.val.toNat = c.toNat := rfl
    omega
  exact if_pos hle

/-- The bytes of a longer character are its lead, and those it goes on with. -/
theorem encodeChar_of_ge {c : Char} (h : 128 ≤ c.toNat) :
    ∃ lead rest, String.utf8EncodeChar c = lead :: rest ∧ 192 ≤ lead.toNat ∧
      ∀ b ∈ String.utf8EncodeChar c, 128 ≤ b.toNat := by
  have hgt : ¬ c.val.toNat ≤ 0x7f := by
    have : c.val.toNat = c.toNat := rfl
    omega
  unfold String.utf8EncodeChar
  simp only [if_neg hgt]
  split_ifs
  all_goals
    refine ⟨_, _, rfl, ?_, ?_⟩
    · rw [UInt8.toNat_ofNat']
      omega
    · simp only [List.forall_mem_cons, List.not_mem_nil, false_implies, implies_true, and_true,
        UInt8.toNat_ofNat']
      omega

/-- Text begins with a character. -/
theorem not_inside_flatMap (text : List Char) : ¬ Inside (text.flatMap String.utf8EncodeChar) := by
  cases text with
  | nil => exact id
  | cons c rest =>
    rw [List.flatMap_cons]
    by_cases hc : c.toNat < 128
    · rw [encodeChar_of_lt hc, List.singleton_append, Inside, continues, decide_eq_true_eq,
        UInt8.toNat_ofNat']
      omega
    · obtain ⟨lead, more, heq, hlead, _⟩ := encodeChar_of_ge (Nat.le_of_not_lt hc)
      rw [heq, List.cons_append, Inside, continues, decide_eq_true_eq]
      omega

theorem whole_utf8 (s : String) : Whole (utf8 s) := by
  rw [utf8_eq]
  induction s.toList with
  | nil => exact .nil
  | cons c rest ih =>
    rw [List.flatMap_cons, Whole, List.isChain_append]
    refine ⟨?_, ih, fun a _ b hb _ => ?_⟩
    · by_cases hc : c.toNat < 128
      · rw [encodeChar_of_lt hc]
        exact .singleton _
      · obtain ⟨_, _, _, _, hall⟩ := encodeChar_of_ge (Nat.le_of_not_lt hc)
        refine (List.pairwise_of_forall_mem_list fun a ha b _ hlt => ?_).isChain
        have hge := hall a ha
        omega
    · obtain ⟨tail, htail⟩ := List.head?_eq_some_iff.mp hb
      have hnot := not_inside_flatMap rest
      rw [htail, Inside] at hnot
      exact Bool.eq_false_iff.mpr hnot

/-- Text of one-byte characters is its bytes. -/
theorem utf8_of_lt {s : String} (h : ∀ c ∈ s.toList, c.toNat < 128) :
    utf8 s = s.toList.map fun c => UInt8.ofNat c.toNat := by
  rw [utf8_eq]
  generalize s.toList = text at h
  induction text with
  | nil => rfl
  | cons c rest ih =>
    obtain ⟨hc, hrest⟩ := List.forall_mem_cons.mp h
    rw [List.flatMap_cons, encodeChar_of_lt hc, ih hrest, List.map_cons, List.singleton_append]

theorem lt_of_utf8 {s : String} (h : ∀ b ∈ utf8 s, b.toNat < 128) :
    ∀ c ∈ s.toList, c.toNat < 128 := by
  intro c hc
  by_contra hge
  obtain ⟨lead, rest, heq, hlead, _⟩ := encodeChar_of_ge (Nat.le_of_not_lt hge)
  have hmem : lead ∈ utf8 s := by
    rw [utf8_eq, List.mem_flatMap]
    exact ⟨c, hc, heq ▸ List.mem_cons_self⟩
  have hlt := h lead hmem
  omega

theorem isHex_iff {s : String} : IsHex s ↔
    (utf8 s).length % 2 = 0 ∧ ∀ b ∈ utf8 s, (toDigit b.toNat).isSome := by
  have hbyte : ∀ c : Char, c.toNat < 128 → (UInt8.ofNat c.toNat).toNat = c.toNat := by
    intro c hc
    rw [UInt8.toNat_ofNat']
    omega
  have hiff : (∀ c ∈ s.toList, c.toNat < 128) → (IsHex s ↔
      (utf8 s).length % 2 = 0 ∧ ∀ b ∈ utf8 s, (toDigit b.toNat).isSome) := by
    intro hlt
    rw [utf8_of_lt hlt, List.length_map, List.forall_mem_map, IsHex]
    refine and_congr_right fun _ => forall₂_congr fun c hc => ?_
    rw [hbyte c (hlt c hc)]
  constructor
  · intro h
    exact (hiff fun c hc => lt_of_toDigit (h.2 c hc)).mp h
  · intro h
    exact (hiff (lt_of_utf8 fun b hb => lt_of_toDigit (h.2 b hb))).mpr h

theorem mem_of_mem_pairs {bytes : List UInt8} {p : UInt8 × UInt8} (h : p ∈ pairs bytes) :
    p.1 ∈ bytes ∧ p.2 ∈ bytes := by
  induction bytes using pairs.induct with
  | case1 a b rest ih =>
    rw [pairs] at h
    rcases List.mem_cons.mp h with rfl | h
    · exact ⟨List.mem_cons_self, List.mem_cons_of_mem _ List.mem_cons_self⟩
    · obtain ⟨hfst, hsnd⟩ := ih h
      exact ⟨List.mem_cons_of_mem _ (List.mem_cons_of_mem _ hfst),
        List.mem_cons_of_mem _ (List.mem_cons_of_mem _ hsnd)⟩
  | case2 bytes hshort =>
    rw [pairs] at h
    · exact absurd h List.not_mem_nil
    · exact hshort

theorem numbers_of_digits {bytes : List UInt8} (h : ∀ b ∈ bytes, (toDigit b.toNat).isSome) :
    Numbers bytes := by
  intro p hp
  obtain ⟨hfst, hsnd⟩ := mem_of_mem_pairs hp
  exact (isSome_fromStrRadix p.1 p.2).mpr ⟨.inr (h p.1 hfst), h p.2 hsnd⟩

theorem toNat_of_digit {c : Char} (h : (toDigit c.toNat).isSome) :
    (UInt8.ofNat c.toNat).toNat = c.toNat := by
  have hlt := lt_of_toDigit h
  rw [UInt8.toNat_ofNat']
  omega

theorem fromStrRadix_digits {high low : Char} (hhigh : (toDigit high.toNat).isSome)
    (hlow : (toDigit low.toNat).isSome) :
    fromStrRadix [UInt8.ofNat high.toNat, UInt8.ofNat low.toNat] =
      some (UInt8.ofNat (16 * value high + value low)) := by
  have hplus : UInt8.ofNat high.toNat ≠ plus := by
    intro heq
    have hval : high.toNat = 43 := by
      rw [← toNat_of_digit hhigh, heq]
      rfl
    rw [hval] at hhigh
    exact absurd hhigh (by decide)
  obtain ⟨x, hx⟩ := Option.isSome_iff_exists.mp hhigh
  obtain ⟨y, hy⟩ := Option.isSome_iff_exists.mp hlow
  rw [fromStrRadix_two, if_neg hplus, toNat_of_digit hhigh, toNat_of_digit hlow, hx, hy, value,
    value, hx, hy]
  rfl

theorem numbers_eq_denoted {text : List Char} (h : ∀ c ∈ text, (toDigit c.toNat).isSome) :
    numbers (text.map fun c => UInt8.ofNat c.toNat) = denoted text := by
  induction text using denoted.induct with
  | case1 high low rest ih =>
    obtain ⟨hhigh, h⟩ := List.forall_mem_cons.mp h
    obtain ⟨hlow, hrest⟩ := List.forall_mem_cons.mp h
    have hread := fromStrRadix_digits hhigh hlow
    rw [List.map_cons, List.map_cons, numbers, pairs, List.filterMap_cons]
    simp only [hread]
    rw [denoted, ← ih hrest, numbers]
  | case2 text hshort =>
    match text with
    | [] => rfl
    | [c] => rfl
    | high :: low :: rest => exact absurd rfl (hshort high low rest)

/-- The text is of odd length, or hex, or the first pair of its bytes that is not a number ends
with a character. -/
def Sound (s : String) : Prop := (utf8 s).length % 2 = 1 ∨ IsHex s ∨ Stopped (utf8 s)

theorem decode_of_isHex {s : String} (h : IsHex s) : decode s = some (some (denoted s.toList)) := by
  obtain ⟨heven, hdigits⟩ := isHex_iff.mp h
  rw [decode_eq heven, walk_of_numbers (whole_utf8 s) (numbers_of_digits hdigits),
    utf8_of_lt fun c hc => lt_of_toDigit (h.2 c hc), numbers_eq_denoted h.2]

theorem meets_of_none {s : String} (h : decode s = some none) : Meets decode s := by
  refine ⟨none, h, fun bytes => ⟨nofun, fun heq => ?_⟩⟩
  rw [decode_of_isHex heq.1] at h
  cases h

theorem meets_of_isHex {s : String} (h : IsHex s) : Meets decode s := by
  refine ⟨_, decode_of_isHex h, fun bytes => ⟨fun heq => ?_, fun heq => ?_⟩⟩
  · exact ⟨h, (Option.some.inj heq).symm⟩
  · rw [heq.2]

theorem decode_none_iff {s : String} (heven : (utf8 s).length % 2 = 0) :
    decode s = some none ↔ Stopped (utf8 s) := by
  rw [decode_eq heven]
  exact walk_none_iff (whole_utf8 s)

theorem meets_iff (s : String) : Meets decode s ↔ Sound s := by
  rcases Nat.mod_two_eq_zero_or_one (utf8 s).length with heven | hodd
  · constructor
    · rintro ⟨decoded, heq, hiff⟩
      right
      cases decoded with
      | none => exact .inr ((decode_none_iff heven).mp heq)
      | some bytes => exact .inl ((hiff bytes).mp rfl).1
    · rintro (hodd | hhex | hstopped)
      · omega
      · exact meets_of_isHex hhex
      · exact meets_of_none ((decode_none_iff heven).mpr hstopped)
  · exact ⟨fun _ => .inl hodd, fun _ => meets_of_none (if_pos (by omega))⟩

theorem toDigit_digitChar : ∀ d < 16, toDigit (Nat.digitChar d).toNat = some d := by decide

theorem value_digitChar {d : Nat} (h : d < 16) : value (Nat.digitChar d) = d := by
  rw [value, toDigit_digitChar d h]
  rfl

theorem isHex_encode (bytes : List UInt8) : IsHex (encode bytes) := by
  have hdigit : ∀ d < 16, (toDigit (Nat.digitChar d).toNat).isSome := by
    intro d hd
    rw [toDigit_digitChar d hd]
    rfl
  rw [IsHex, encode, String.toList_ofList]
  induction bytes with
  | nil => exact ⟨rfl, fun c hc => absurd hc List.not_mem_nil⟩
  | cons b rest ih =>
    have hb := b.toNat_lt
    obtain ⟨heven, hall⟩ := ih
    rw [List.flatMap_cons, hexByte]
    refine ⟨?_, ?_⟩
    · rw [List.length_append, List.length_cons, List.length_singleton]
      omega
    · rw [List.cons_append, List.singleton_append, List.forall_mem_cons, List.forall_mem_cons]
      exact ⟨hdigit _ (by omega), hdigit _ (by omega), hall⟩

theorem denoted_encode (bytes : List UInt8) : denoted (encode bytes).toList = bytes := by
  rw [encode, String.toList_ofList]
  induction bytes with
  | nil => rfl
  | cons b rest ih =>
    have hb := b.toNat_lt
    have hbyte : UInt8.ofNat (16 * (b.toNat / 16) + b.toNat % 16) = b := by
      rw [Nat.div_add_mod]
      exact UInt8.ofNat_toNat
    rw [List.flatMap_cons, hexByte, List.cons_append, List.singleton_append, denoted, ih,
      value_digitChar (by omega), value_digitChar (by omega), hbyte]

theorem decode_encode (bytes : List UInt8) : decode (encode bytes) = some (some bytes) := by
  rw [decode_of_isHex (isHex_encode bytes), denoted_encode]

/-- Decoding meets its purpose exactly on sound text, which what was encoded is. -/
theorem hex_meets_iff (s : String) (bytes : List UInt8) :
    (Meets Worker.hexDecode s ↔ Sound s) ∧ (Meets Grants.unhex s ↔ Sound s) ∧
      Worker.hexDecode (Worker.hexEncode bytes) = some (some bytes) ∧
      Grants.unhex (Grants.hex bytes) = some (some bytes) :=
  ⟨meets_iff s, meets_iff s, decode_encode bytes, decode_encode bytes⟩

/-- A plus passes for a digit, and a character that is cut panics. -/
theorem hex_misread :
    Worker.hexDecode "+f" = some (some [15]) ∧ Worker.hexDecode "€a" = none ∧
      Grants.unhex "+f" = some (some [15]) ∧ Grants.unhex "€a" = none ∧
      ¬ Meets Worker.hexDecode "+f" ∧ ¬ Meets Worker.hexDecode "€a" := by
  have hplus : Worker.hexDecode "+f" = some (some [15]) := by decide
  have hcut : Worker.hexDecode "€a" = none := by decide
  refine ⟨hplus, hcut, hplus, hcut, ?_, ?_⟩
  · rintro ⟨decoded, heq, hiff⟩
    rw [hplus] at heq
    obtain rfl := Option.some.inj heq
    obtain ⟨_, hdigits⟩ := ((hiff [15]).mp rfl).1
    have hfirst := hdigits '+' (by decide)
    exact absurd hfirst (by decide)
  · rintro ⟨decoded, heq, _⟩
    rw [hcut] at heq
    cases heq

end Fafo.HexText
