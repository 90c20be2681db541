import Mathlib.Data.List.Perm.Basic
import Mathlib.Data.Prod.Lex
import Fafo.HexText
import Fafo.KeyTexts
import Fafo.R2Store

/-! The requests to R2 are signed: the text that is signed, and what it tells of the request. -/
namespace Fafo.R2

open EntryWire (utf8)
open FsStore (sortKeys)
open Listing (Name)

/-- `s.bytes()` -/
def bytesOf (s : Name) : List UInt8 := utf8 (String.ofList s)

def charOf (b : UInt8) : Char := Char.ofNat b.toNat

/-- `'A'..='Z' | 'a'..='z' | '0'..='9' | '-' | '.' | '_' | '~'` -/
def unreserved (b : UInt8) : Bool :=
  (charOf b).isAlphanum || charOf b ∈ ['-', '.', '_', '~']

/-- `{byte:02X}` -/
def upperHex (b : UInt8) : Name :=
  [(Nat.digitChar (b.toNat / 16)).toUpper, (Nat.digitChar (b.toNat % 16)).toUpper]

def uriByte (encodeSlash : Bool) (b : UInt8) : Name :=
  if unreserved b then [charOf b]
  else if charOf b = '/' ∧ encodeSlash = false then ['/']
  else '%' :: upperHex b

def uriEncode (s : Name) (encodeSlash : Bool) : Name := (bytesOf s).flatMap (uriByte encodeSlash)

def uriPair (pair : Name × Name) : Name :=
  uriEncode pair.1 true ++ '=' :: uriEncode pair.2 true

def canonicalQuery (query : List (Name × Name)) : Name :=
  List.intercalate ['&'] (sortKeys (query.map uriPair))

/-- `path_for`, or the bucket itself. -/
def pathFor (bucket : Name) : Option Name → Name
  | none => '/' :: bucket
  | some key => '/' :: bucket ++ '/' :: uriEncode key false

/-- Pairs of strings are sorted by the first, then by the second. -/
def sortHeaders (headers : List (Name × Name)) : List (Name × Name) :=
  headers.insertionSort fun a b => toLex a ≤ toLex b

/-- What `sign_request` is given of a request. -/
structure Signed where
  method : Name
  host : Name
  bucket : Name
  key : Option Name
  query : List (Name × Name)
  extraHeaders : List (Name × Name) := []
  payloadHash : Name
  date : Name
  time : Name

/-- `to_lowercase` and `trim`, of any characters. -/
structure Texts where
  toLowercase : Name → Name
  trim : Name → Name

/-- `format!("{date}T{time}Z")` -/
def Signed.amzDate (r : Signed) : Name := r.date ++ 'T' :: (r.time ++ ['Z'])

namespace Header

def host : Name := ['h', 'o', 's', 't']
def amzContentSha256 : Name :=
  ['x', '-', 'a', 'm', 'z', '-', 'c', 'o', 'n', 't', 'e', 'n', 't', '-', 's', 'h', 'a', '2', '5',
    '6']
def amzDate : Name := ['x', '-', 'a', 'm', 'z', '-', 'd', 'a', 't', 'e']

end Header

/-- The headers that are signed, before they are sorted. -/
def Signed.headers (T : Texts) (r : Signed) : List (Name × Name) :=
  [(Header.host, r.host), (Header.amzContentSha256, r.payloadHash), (Header.amzDate, r.amzDate)] ++
    r.extraHeaders.map fun h => (T.toLowercase h.1, T.trim h.2)

/-- `format!("{k}:{v}\n")` -/
def headerLine (h : Name × Name) : Name := h.1 ++ ':' :: (h.2 ++ ['\n'])

def canonicalHeaders (headers : List (Name × Name)) : Name :=
  (sortHeaders headers).flatMap headerLine

def signedHeaders (headers : List (Name × Name)) : Name :=
  List.intercalate [';'] ((sortHeaders headers).map Prod.fst)

def canonicalRequest (T : Texts) (r : Signed) : Name :=
  r.method ++ '\n' :: (pathFor r.bucket r.key ++ '\n' :: (canonicalQuery r.query ++ '\n' ::
    (canonicalHeaders (r.headers T) ++ '\n' :: (signedHeaders (r.headers T) ++
      '\n' :: r.payloadHash))))

/-- The byte of two digits. -/
def pairValue (high low : Char) : UInt8 :=
  UInt8.ofNat ((HexText.toDigit high.toNat).getD 0 * 16 + (HexText.toDigit low.toNat).getD 0)

/-- What is read back: a percent sign and two digits, or a byte as it is. -/
def uriDecode : Name → List UInt8
  | '%' :: high :: low :: rest =>
    pairValue high low :: uriDecode rest
  | c :: rest => UInt8.ofNat c.toNat :: uriDecode rest
  | [] => []

theorem toNat_charOf (b : UInt8) : (charOf b).toNat = b.toNat := by
  have hlt : b.toNat < 256 := b.toNat_lt
  have hvalid : b.toNat.isValidChar := .inl (by omega)
  have hchar : charOf b = Char.ofNatAux b.toNat hvalid := dif_pos hvalid
  rw [hchar]
  rfl

theorem ofNat_charOf (b : UInt8) : UInt8.ofNat (charOf b).toNat = b := by
  rw [toNat_charOf, UInt8.ofNat_toNat]

/-- The characters that a text of encoded parts is cut at. -/
def special : List Char := ['%', '\n', '&', '=', '/']

theorem unreserved_not_special {b : UInt8} (h : unreserved b = true) : charOf b ∉ special := by
  unfold unreserved at h
  generalize charOf b = c at h ⊢
  intro hc
  simp only [special, List.mem_cons, List.not_mem_nil, or_false] at hc
  obtain rfl | rfl | rfl | rfl | rfl := hc <;> revert h <;> decide

theorem upperDigit {n : Nat} (h : n < 16) : (Nat.digitChar n).toUpper ∉ special ∧
    HexText.toDigit (Nat.digitChar n).toUpper.toNat = some n := by
  have hall : ∀ n < 16, (Nat.digitChar n).toUpper ∉ special ∧
      HexText.toDigit (Nat.digitChar n).toUpper.toNat = some n := by decide
  exact hall n h

/-- A byte is encoded as a character that is not special, as a slash, or as a percent sign and two
digits. -/
theorem uriByte_cases (encodeSlash : Bool) (b : UInt8) :
    (∃ c, uriByte encodeSlash b = [c] ∧ UInt8.ofNat c.toNat = b ∧
      (c ∉ special ∨ c = '/' ∧ encodeSlash = false)) ∨
    ∃ high low, uriByte encodeSlash b = ['%', high, low] ∧ pairValue high low = b ∧
      high ∉ special ∧ low ∉ special := by
  unfold uriByte
  split
  · next h => exact .inl ⟨charOf b, rfl, ofNat_charOf b, .inl (unreserved_not_special h)⟩
  · split
    · next h => exact .inl ⟨'/', rfl, h.1 ▸ ofNat_charOf b, .inr ⟨rfl, h.2⟩⟩
    · have hlt : b.toNat < 256 := b.toNat_lt
      have hhigh := upperDigit (n := b.toNat / 16) (by omega)
      have hlow := upperDigit (n := b.toNat % 16) (by omega)
      refine .inr ⟨_, _, rfl, ?_, hhigh.1, hlow.1⟩
      rw [pairValue, hhigh.2, hlow.2, Option.getD_some, Option.getD_some, Nat.div_add_mod',
        UInt8.ofNat_toNat]

theorem uriDecode_uriByte (encodeSlash : Bool) (b : UInt8) (rest : Name) :
    uriDecode (uriByte encodeSlash b ++ rest) = b :: uriDecode rest := by
  obtain ⟨c, hbyte, hvalue, hc⟩ | ⟨high, low, hbyte, hvalue, _⟩ := uriByte_cases encodeSlash b
  · have hne : c ≠ '%' := by
      rintro rfl
      obtain hc | ⟨hc, _⟩ := hc
      · exact hc (by decide)
      · exact absurd hc (by decide)
    rw [hbyte, List.singleton_append, uriDecode.eq_2 _ _ (fun _ _ _ heq _ => hne heq), hvalue]
  · rw [hbyte]
    change pairValue high low :: uriDecode rest = _
    rw [hvalue]

theorem uriDecode_flatMap (encodeSlash : Bool) (bytes : List UInt8) :
    uriDecode (bytes.flatMap (uriByte encodeSlash)) = bytes := by
  induction bytes with
  | nil => rfl
  | cons b bytes ih => rw [List.flatMap_cons, uriDecode_uriByte, ih]

theorem bytesOf_injective : Function.Injective bytesOf := by
  intro s t h
  have hs : EntryWire.fromUtf8 (bytesOf s) = some (String.ofList s) :=
    EntryWire.fromUtf8_eq_some.mpr rfl
  have ht : EntryWire.fromUtf8 (bytesOf t) = some (String.ofList t) :=
    EntryWire.fromUtf8_eq_some.mpr rfl
  rw [h, ht] at hs
  exact (String.ofList_injective (Option.some.inj hs)).symm

/-- The text of an encoded string tells the string. -/
theorem uriEncode_injective (encodeSlash : Bool) :
    Function.Injective fun s => uriEncode s encodeSlash := by
  intro s t h
  apply bytesOf_injective
  have hdecode := congrArg uriDecode h
  simpa only [uriEncode, uriDecode_flatMap] using hdecode

theorem not_mem_uriEncode {encodeSlash : Bool} {c : Char} (s : Name)
    (hc : c ∈ ['\n', '&', '=', '/']) (hslash : c = '/' → encodeSlash = true) :
    c ∉ uriEncode s encodeSlash := by
  have hspecial : c ∈ special := List.mem_cons_of_mem _ hc
  intro h
  obtain ⟨b, _, hb⟩ := List.mem_flatMap.mp h
  obtain ⟨c', hbyte, _, hc'⟩ | ⟨high, low, hbyte, _, hhigh, hlow⟩ := uriByte_cases encodeSlash b
  · rw [hbyte, List.mem_singleton] at hb
    subst hb
    obtain hnot | ⟨rfl, hkept⟩ := hc'
    · exact hnot hspecial
    · rw [hslash rfl] at hkept
      cases hkept
  · rw [hbyte] at hb
    simp only [List.mem_cons, List.not_mem_nil, or_false] at hb
    obtain rfl | rfl | rfl := hb
    · exact absurd hc (by decide)
    · exact hhigh hspecial
    · exact hlow hspecial

theorem uriPair_injective : Function.Injective uriPair := by
  intro p q h
  have hnot (s : Name) : '=' ∉ uriEncode s true := not_mem_uriEncode s (by decide) (by decide)
  obtain ⟨hname, hvalue⟩ := KeyTexts.append_sep_inj (hnot p.1) (hnot q.1) h
  exact Prod.ext (uriEncode_injective true hname) (uriEncode_injective true hvalue)

theorem not_mem_uriPair {c : Char} (hc : c ∈ ['\n', '&']) (pair : Name × Name) :
    c ∉ uriPair pair := by
  have hnot (s : Name) : c ∉ uriEncode s true :=
    not_mem_uriEncode s (List.mem_append_left ['=', '/'] hc) fun _ => rfl
  have heq : c ≠ '=' := by
    rintro rfl
    exact absurd hc (by decide)
  simp [uriPair, hnot, heq]

/-- Parts that are not empty are told by what is joined of them. -/
theorem intercalate_injective {sep : Char} {parts parts' : List Name}
    (h : ∀ part ∈ parts, sep ∉ part ∧ part ≠ []) (h' : ∀ part ∈ parts', sep ∉ part ∧ part ≠ [])
    (heq : List.intercalate [sep] parts = List.intercalate [sep] parts') : parts = parts' := by
  have hempty {parts : List Name} (h : ∀ part ∈ parts, sep ∉ part ∧ part ≠ [])
      (heq : List.intercalate [sep] parts = []) : parts = [] := by
    by_contra hne
    have hsplit := List.splitOn_intercalate sep (fun part hpart => (h part hpart).1) hne
    rw [heq, List.splitOn_nil] at hsplit
    exact (h [] (hsplit ▸ List.mem_cons_self)).2 rfl
  by_cases hne : parts = []
  · subst hne
    exact (hempty h' heq.symm).symm
  · have hne' : parts' ≠ [] := by
      rintro rfl
      exact hne (hempty h heq)
    rw [← List.splitOn_intercalate sep (fun part hpart => (h part hpart).1) hne, heq,
      List.splitOn_intercalate sep (fun part hpart => (h' part hpart).1) hne']

/-- Whatever the order of a query's pairs, its text tells them. -/
theorem canonicalQuery_eq_iff {query query' : List (Name × Name)} :
    canonicalQuery query = canonicalQuery query' ↔ query.Perm query' := by
  have hparts (query : List (Name × Name)) :
      ∀ part ∈ sortKeys (query.map uriPair), '&' ∉ part ∧ part ≠ [] := by
    intro part hpart
    obtain ⟨pair, _, rfl⟩ := List.mem_map.mp (FsStore.mem_sortKeys.mp hpart)
    exact ⟨not_mem_uriPair (by decide) pair, by simp [uriPair]⟩
  rw [← List.map_perm_map_iff uriPair_injective, ← FsStore.sortKeys_eq_iff]
  exact ⟨intercalate_injective (hparts query) (hparts query'), congrArg _⟩

theorem sortHeaders_perm (headers : List (Name × Name)) :
    (sortHeaders headers).Perm headers := List.perm_insertionSort _ _

theorem sortHeaders_eq_iff {headers headers' : List (Name × Name)} :
    sortHeaders headers = sortHeaders headers' ↔ headers.Perm headers' := by
  have hperm := sortHeaders_perm headers
  have hperm' := sortHeaders_perm headers'
  constructor
  · intro h
    exact hperm.symm.trans (h ▸ hperm')
  · intro h
    have hsorted (headers : List (Name × Name)) :
        (sortHeaders headers).Pairwise fun a b => toLex a ≤ toLex b :=
      List.pairwise_insertionSort _ _
    refine (hperm.trans (h.trans hperm'.symm)).eq_of_pairwise (fun a b _ _ hab hba => ?_)
      (hsorted headers) (hsorted headers')
    exact toLex.injective (le_antisymm hab hba)

def CleanHeader (h : Name × Name) : Prop := '\n' ∉ h.1 ∧ ':' ∉ h.1 ∧ '\n' ∉ h.2

/-- Lines up to an empty one are told by the text. -/
theorem headerLines_injective {headers headers' : List (Name × Name)} {rest rest' : Name}
    (h : ∀ x ∈ headers, CleanHeader x) (h' : ∀ x ∈ headers', CleanHeader x)
    (heq : headers.flatMap headerLine ++ '\n' :: rest =
      headers'.flatMap headerLine ++ '\n' :: rest') :
    headers = headers' ∧ rest = rest' := by
  have hcons (x : Name × Name) (more : List (Name × Name)) (rest : Name) :
      (x :: more).flatMap headerLine ++ '\n' :: rest =
        (x.1 ++ ':' :: x.2) ++ '\n' :: (more.flatMap headerLine ++ '\n' :: rest) := by
    simp [headerLine]
  have hclear {x : Name × Name} (hx : CleanHeader x) : '\n' ∉ x.1 ++ ':' :: x.2 := by
    simp [hx.1, hx.2.2]
  have hnil : '\n' ∉ ([] : Name) := List.not_mem_nil
  induction headers generalizing headers' with
  | nil =>
    cases headers' with
    | nil => exact ⟨rfl, (List.cons.inj heq).2⟩
    | cons y headers' =>
      rw [hcons] at heq
      have hempty := (KeyTexts.append_sep_inj hnil (hclear (h' y List.mem_cons_self)) heq).1
      simp at hempty
  | cons x headers ih =>
    rw [hcons] at heq
    have hx := h x List.mem_cons_self
    cases headers' with
    | nil =>
      have hempty := (KeyTexts.append_sep_inj (hclear hx) hnil heq).1
      simp at hempty
    | cons y headers' =>
      rw [hcons] at heq
      have hy := h' y List.mem_cons_self
      obtain ⟨hfirst, hmore⟩ := KeyTexts.append_sep_inj (hclear hx) (hclear hy) heq
      obtain ⟨hname, hvalue⟩ := KeyTexts.append_sep_inj hx.2.1 hy.2.1 hfirst
      obtain ⟨rfl, hrest⟩ := ih (fun x hx => h x (List.mem_cons_of_mem _ hx))
        (fun y hy => h' y (List.mem_cons_of_mem _ hy)) hmore
      exact ⟨by rw [Prod.ext hname hvalue], hrest⟩

theorem pathFor_injective {bucket bucket' : Name} {key key' : Option Name} (h : '/' ∉ bucket)
    (h' : '/' ∉ bucket') (heq : pathFor bucket key = pathFor bucket' key') :
    bucket = bucket' ∧ key = key' := by
  cases key with
  | none =>
    cases key' with
    | none => exact ⟨(List.cons.inj heq).2, rfl⟩
    | some key' =>
      have hmem : '/' ∈ bucket := by
        rw [show bucket = bucket' ++ '/' :: uriEncode key' false from (List.cons.inj heq).2]
        simp
      exact absurd hmem h
  | some key =>
    cases key' with
    | none =>
      have hmem : '/' ∈ bucket' := by
        rw [← show bucket ++ '/' :: uriEncode key false = bucket' from (List.cons.inj heq).2]
        simp
      exact absurd hmem h'
    | some key' =>
      obtain ⟨rfl, hkey⟩ := KeyTexts.append_sep_inj h h' (List.cons.inj heq).2
      exact ⟨rfl, congrArg _ (uriEncode_injective false hkey)⟩

/-- No part of the request is of two lines, a bucket's name has no slash, and a header's no colon.
-/
structure Signed.Clean (T : Texts) (r : Signed) : Prop where
  method : '\n' ∉ r.method
  bucket : '\n' ∉ r.bucket ∧ '/' ∉ r.bucket
  headers : ∀ x ∈ r.headers T, CleanHeader x

theorem newline_not_mem_pathFor {bucket : Name} (h : '\n' ∉ bucket) (key : Option Name) :
    '\n' ∉ pathFor bucket key := by
  have hkey (key : Name) : '\n' ∉ uriEncode key false := not_mem_uriEncode key (by decide) (by simp)
  cases key with
  | none => simp [pathFor, h]
  | some key => simp [pathFor, h, hkey key]

theorem newline_not_mem_query (query : List (Name × Name)) : '\n' ∉ canonicalQuery query := by
  intro hmem
  obtain hsep | ⟨part, hpart, hin⟩ := FsStore.mem_intercalate hmem
  · exact absurd hsep (by decide)
  · obtain ⟨pair, _, rfl⟩ := List.mem_map.mp (FsStore.mem_sortKeys.mp hpart)
    exact not_mem_uriPair (by decide) pair hin

/-- The text that is signed tells the method, the bucket, the key, the query, the payload's hash,
and the headers with their names in lower case and their values trimmed, in whatever order pairs
are given. -/
theorem canonicalRequest_eq_iff (T : Texts) {r r' : Signed} (h : r.Clean T) (h' : r'.Clean T) :
    canonicalRequest T r = canonicalRequest T r' ↔ r.method = r'.method ∧ r.bucket = r'.bucket ∧
      r.key = r'.key ∧ r.query.Perm r'.query ∧ (r.headers T).Perm (r'.headers T) ∧
        r.payloadHash = r'.payloadHash := by
  constructor
  · intro heq
    obtain ⟨hmethod, heq⟩ := KeyTexts.append_sep_inj h.method h'.method heq
    obtain ⟨hpath, heq⟩ := KeyTexts.append_sep_inj (newline_not_mem_pathFor h.bucket.1 r.key)
      (newline_not_mem_pathFor h'.bucket.1 r'.key) heq
    obtain ⟨hquery, heq⟩ := KeyTexts.append_sep_inj (newline_not_mem_query r.query)
      (newline_not_mem_query r'.query) heq
    have hclean {headers : List (Name × Name)} (h : ∀ x ∈ headers, CleanHeader x) :
        ∀ x ∈ sortHeaders headers, CleanHeader x :=
      fun x hx => h x ((sortHeaders_perm headers).mem_iff.mp hx)
    obtain ⟨hheaders, heq⟩ := headerLines_injective (hclean h.headers) (hclean h'.headers) heq
    rw [signedHeaders, signedHeaders, hheaders] at heq
    obtain ⟨hbucket, hkey⟩ := pathFor_injective h.bucket.2 h'.bucket.2 hpath
    exact ⟨hmethod, hbucket, hkey, canonicalQuery_eq_iff.mp hquery,
      sortHeaders_eq_iff.mp hheaders, (List.cons.inj (List.append_cancel_left heq)).2⟩
  · rintro ⟨hmethod, hbucket, hkey, hquery, hheaders, hhash⟩
    rw [canonicalRequest, canonicalRequest, hmethod, hbucket, hkey,
      canonicalQuery_eq_iff.mpr hquery, canonicalHeaders, canonicalHeaders, signedHeaders,
      signedHeaders, sortHeaders_eq_iff.mpr hheaders, hhash]

/-- Letters and white space as in ASCII. -/
def asciiTexts : Texts where
  toLowercase name := name.map Char.toLower
  trim value := ((value.dropWhile Char.isWhitespace).reverse.dropWhile Char.isWhitespace).reverse

/-- A read of four bytes, with its range spelt as one likes. -/
def rangeRequest (name value : Name) : Signed where
  method := ['G', 'E', 'T']
  host := ['r', '2']
  bucket := ['b']
  key := some ['a', '/', 'b']
  query := [(['p'], ['&', '=']), (['q'], [])]
  extraHeaders := [(name, value)]
  payloadHash := ['0']
  date := ['1']
  time := ['2']

/-- The name in capitals, and a value with white space around it. -/
def shouted : Signed :=
  rangeRequest ['R', 'A', 'N', 'G', 'E'] [' ', 'b', '=', '0', '-', '3', ' ']

def plain : Signed := rangeRequest ['r', 'a', 'n', 'g', 'e'] ['b', '=', '0', '-', '3']

theorem rangeRequest_clean {name value : Name}
    (hextra : CleanHeader (asciiTexts.toLowercase name, asciiTexts.trim value)) :
    (rangeRequest name value).Clean asciiTexts := by
  have hmethod : '\n' ∉ ['G', 'E', 'T'] := by decide
  have hbucket : '\n' ∉ ['b'] ∧ '/' ∉ ['b'] := by decide
  have hdate : CleanHeader (Header.amzDate, ['1', 'T', '2', 'Z']) :=
    ⟨by decide, by decide, by decide⟩
  refine ⟨hmethod, hbucket, fun x hx => ?_⟩
  simp only [Signed.headers, rangeRequest, List.map_cons, List.map_nil, List.cons_append,
    List.nil_append, List.mem_cons, List.not_mem_nil, or_false] at hx
  obtain rfl | rfl | rfl | rfl := hx
  · exact ⟨by decide, by decide, by decide⟩
  · exact ⟨by decide, by decide, by decide⟩
  · exact hdate
  · exact hextra

theorem canonicalRequest_eq_iff_shouted :
    canonicalRequest asciiTexts shouted = canonicalRequest asciiTexts plain := by
  have hshouted : shouted.Clean asciiTexts :=
    rangeRequest_clean ⟨by decide, by decide, by decide⟩
  have hplain : plain.Clean asciiTexts := rangeRequest_clean ⟨by decide, by decide, by decide⟩
  exact (canonicalRequest_eq_iff asciiTexts hshouted hplain).mpr
    ⟨rfl, rfl, rfl, .refl _, .refl _, rfl⟩

end Fafo.R2
