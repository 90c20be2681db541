import Mathlib.Algebra.Group.Nat.Defs
import Fafo.EdgeRouting
import Fafo.FsLayout
import Fafo.Library.Lists

/-! The texts of the log engine's keys: what the store lists, sorts and parses is what the keys
say. -/
namespace Fafo.KeyTexts

open Edge (parseUsize)
open FsStore (Part Path pathFor Layout sortKeys IsTmp afterDot)
open Listing (Name padded keyText objectsPrefix txnsPrefix stagingPrefix)

/-- `objects/<id>.L.` -/
def logText (id : Name) : Name := objectsPrefix ++ id ++ ['.', 'L', '.']

/-- `objects/<id>.B.` -/
def baseText (id : Name) : Name := objectsPrefix ++ id ++ ['.', 'B', '.']

/-- `key.strip_prefix(pre)?.parse().ok()`, for a u64. -/
def parseSeq (pre key : Name) : Option Nat := (pre.isPrefixOf? key).bind parseUsize

def parseLogText (key id : Name) : Option Nat := parseSeq (logText id) key

def parseBaseText (key id : Name) : Option Nat := parseSeq (baseText id) key

/-- A key whose ids have neither slashes nor dots, as those that users choose. -/
abbrev PlainKey := Key Part Part

def toNames : PlainKey → Key Name Name
  | .log id seq => .log id.1 seq
  | .base id seq => .base id.1 seq
  | .outcome txn => .outcome txn.1
  | .staging txn id => .staging txn.1 id.1

def text (k : PlainKey) : Name := keyText (toNames k)

section Digits

/-- What the digits come to. -/
abbrev value (digits : Name) : Nat := Nat.ofDigitChars 10 digits 0

def AllDigits (digits : Name) : Prop := ∀ c ∈ digits, c.isDigit = true

theorem isDigit_bounds {c : Char} (h : c.isDigit = true) : 48 ≤ c.toNat ∧ c.toNat ≤ 57 := by
  simp only [Char.isDigit, Bool.and_eq_true, decide_eq_true_eq] at h
  exact h

theorem value_cons (c : Char) (cs : Name) :
    value (c :: cs) = 10 ^ cs.length * (c.toNat - 48) + value cs := by
  rw [value, Nat.ofDigitChars_cons, Nat.ofDigitChars_eq_ofDigitChars_zero, Nat.mul_zero,
    Nat.zero_add]
  rfl

theorem value_lt {cs : Name} (h : AllDigits cs) : value cs < 10 ^ cs.length := by
  induction cs with
  | nil => simp [value]
  | cons c cs ih =>
    have hc := isDigit_bounds (h c List.mem_cons_self)
    have hcs := ih fun d hd => h d (List.mem_cons_of_mem _ hd)
    rw [value_cons, List.length_cons, Nat.pow_succ]
    have hdigit : 10 ^ cs.length * (c.toNat - 48) ≤ 10 ^ cs.length * 9 :=
      Nat.mul_le_mul_left _ (by omega)
    omega

theorem char_lt_iff {a b : Char} : a < b ↔ a.toNat < b.toNat := by
  rw [Char.lt_def, UInt32.lt_iff_toNat_lt]
  rfl

/-- Texts of one length sort as their numbers do. -/
theorem lt_iff_value_lt {xs ys : Name} (hx : AllDigits xs) (hy : AllDigits ys)
    (hlen : xs.length = ys.length) : xs < ys ↔ value xs < value ys := by
  induction xs generalizing ys with
  | nil =>
    obtain rfl := List.length_eq_zero_iff.mp hlen.symm
    simp
  | cons a xs ih =>
    cases ys with
    | nil => cases hlen
    | cons b ys =>
      have ha := isDigit_bounds (hx a List.mem_cons_self)
      have hb := isDigit_bounds (hy b List.mem_cons_self)
      have hxs : AllDigits xs := fun d hd => hx d (List.mem_cons_of_mem _ hd)
      have hys : AllDigits ys := fun d hd => hy d (List.mem_cons_of_mem _ hd)
      have hlength : xs.length = ys.length := Nat.succ.inj hlen
      have hxlt := value_lt hxs
      have hylt := value_lt hys
      rw [List.cons_lt_cons_iff, ih hxs hys hlength, char_lt_iff, value_cons, value_cons, hlength]
      rw [hlength] at hxlt
      generalize 10 ^ ys.length = unit at hxlt hylt ⊢
      -- the first digit decides, unless the two are the same
      obtain hlt | heq | hgt := Nat.lt_trichotomy (a.toNat - 48) (b.toNat - 48)
      · have hstep : unit * (a.toNat - 48) + unit ≤ unit * (b.toNat - 48) := by
          rw [← Nat.mul_succ]
          exact Nat.mul_le_mul_left _ hlt
        exact ⟨fun _ => by omega, fun _ => .inl (by omega)⟩
      · have hab : a = b := Char.toNat_inj.mp (by omega)
        subst hab
        simp
      · have hstep : unit * (b.toNat - 48) + unit ≤ unit * (a.toNat - 48) := by
          rw [← Nat.mul_succ]
          exact Nat.mul_le_mul_left _ hgt
        constructor
        · rintro (hlt | ⟨rfl, _⟩)
          · omega
          · omega
        · intro hlt
          omega

end Digits

/-- Twenty digits hold every u64. -/
abbrev limit : Nat := 10 ^ 20

theorem padded_digits (seq : Nat) : AllDigits (padded seq) := by
  intro c hc
  rw [padded, List.leftpad, List.mem_append] at hc
  obtain hzero | hdigit := hc
  · rw [List.eq_of_mem_replicate hzero]
    rfl
  · exact Edge.isDigit_toDigits hdigit

theorem value_padded (seq : Nat) : value (padded seq) = seq := by
  rw [value, padded, List.leftpad, Nat.ofDigitChars_append, Nat.ofDigitChars_replicate_zero,
    Nat.mul_zero, Nat.ofDigitChars_ten_toDigits]

theorem length_padded {seq : Nat} (h : seq < limit) : (padded seq).length = 20 := by
  have hle : (Nat.toDigits 10 seq).length ≤ 20 :=
    (Nat.length_toDigits_le_iff (by decide) (by decide)).mpr h
  rw [padded, List.length_leftpad]
  omega

theorem padded_injective : Function.Injective padded := by
  intro a b h
  rw [← value_padded a, h, value_padded]

theorem parseUsize_padded {seq : Nat} (h : seq < 2 ^ 64) : parseUsize (padded seq) = some seq := by
  have hdigits := padded_digits seq
  have hsign : Edge.unsigned (padded seq) = padded seq := by
    refine Edge.unsigned_of_head fun ds heq => ?_
    exact absurd (hdigits '+' (heq ▸ List.mem_cons_self)) (by decide)
  have hne : padded seq ≠ [] := by
    intro hnil
    have hlen := congrArg List.length hnil
    rw [padded, List.length_leftpad] at hlen
    simp at hlen
  have hvalue : Nat.ofDigitChars 10 (padded seq) 0 = seq := value_padded seq
  simp only [parseUsize, hsign, hvalue]
  rw [if_pos ⟨hne, List.all_eq_true.mpr hdigits, h⟩]

/-- What comes before the first separator is told by the text. -/
theorem append_sep_inj {sep : Char} {a b x y : Name} (ha : sep ∉ a) (hb : sep ∉ b)
    (h : a ++ sep :: x = b ++ sep :: y) : a = b ∧ x = y := by
  have hsplit := congrArg (List.splitOn sep) h
  rw [List.splitOn_append_cons_self_of_not_mem ha, List.splitOn_append_cons_self_of_not_mem hb]
    at hsplit
  obtain ⟨rfl, _⟩ := List.cons.inj hsplit
  exact ⟨rfl, (List.cons.inj (List.append_cancel_left h)).2⟩

/-- A name below a directory: an id, a dot, and more. -/
def named (id more : Name) : Name := id ++ '.' :: more

theorem text_log (id : Part) (seq : Nat) :
    text (.log id seq) = objectsPrefix ++ named id.1 (['L', '.'] ++ padded seq) := by
  simp [text, toNames, keyText, named]

theorem text_base (id : Part) (seq : Nat) :
    text (.base id seq) = objectsPrefix ++ named id.1 (['B', '.'] ++ padded seq) := by
  simp [text, toNames, keyText, named]

theorem text_outcome (txn : Part) : text (.outcome txn) = txnsPrefix ++ named txn.1 ['O'] := by
  simp [text, toNames, keyText, named]

theorem text_staging (txn id : Part) : text (.staging txn id) =
    stagingPrefix ++ (txn.1 ++ '/' :: named id.1 ['s', 'n', 'a', 'p']) := by
  simp [text, toNames, keyText, named]

theorem logText_eq (id : Name) : logText id = objectsPrefix ++ named id ['L', '.'] := by
  simp [logText, named]

theorem baseText_eq (id : Name) : baseText id = objectsPrefix ++ named id ['B', '.'] := by
  simp [baseText, named]

theorem named_append (id more rest : Name) : named id more ++ rest = named id (more ++ rest) := by
  simp [named]

theorem named_inj {id id' : Part} {more more' : Name} (h : named id.1 more = named id'.1 more') :
    id = id' ∧ more = more' := by
  obtain ⟨hid, hmore⟩ := append_sep_inj id.2.2.2 id'.2.2.2 h
  exact ⟨Subtype.ext hid, hmore⟩

/-- The keys that begin with an object's id and a letter, and what follows. -/
theorem numbered_append {letter : Char} {id : Part} {k : PlainKey} {rest : Name} :
    objectsPrefix ++ named id.1 [letter, '.'] ++ rest = text k ↔
      ∃ seq, rest = padded seq ∧
        (letter = 'L' ∧ k = .log id seq ∨ letter = 'B' ∧ k = .base id seq) := by
  rw [List.append_assoc, named_append]
  constructor
  · intro h
    cases k with
    | log i seq =>
      rw [text_log] at h
      obtain ⟨rfl, hmore⟩ := named_inj (List.append_cancel_left h)
      obtain ⟨rfl, hrest⟩ := List.cons.inj hmore
      exact ⟨seq, (List.cons.inj hrest).2, .inl ⟨rfl, rfl⟩⟩
    | base i seq =>
      rw [text_base] at h
      obtain ⟨rfl, hmore⟩ := named_inj (List.append_cancel_left h)
      obtain ⟨rfl, hrest⟩ := List.cons.inj hmore
      exact ⟨seq, (List.cons.inj hrest).2, .inr ⟨rfl, rfl⟩⟩
    | outcome txn =>
      rw [text_outcome] at h
      cases (List.cons.inj h).1
    | staging txn i =>
      rw [text_staging] at h
      cases (List.cons.inj h).1
  · rintro ⟨seq, rfl, ⟨rfl, rfl⟩ | ⟨rfl, rfl⟩⟩
    · rw [text_log]
    · rw [text_base]

theorem parseLogSeq_eq_some {id : Part} {k : PlainKey} {seq : Nat} :
    parseLogSeq id k = some seq ↔ k = .log id seq := by
  cases k with
  | log i s => simp [parseLogSeq, Key.log.injEq]
  | base i s => simp [parseLogSeq]
  | outcome txn => simp [parseLogSeq]
  | staging txn i => simp [parseLogSeq]

theorem parseBaseSeq_eq_some {id : Part} {k : PlainKey} {seq : Nat} :
    parseBaseSeq id k = some seq ↔ k = .base id seq := by
  cases k with
  | log i s => simp [parseBaseSeq]
  | base i s => simp [parseBaseSeq, Key.base.injEq]
  | outcome txn => simp [parseBaseSeq]
  | staging txn i => simp [parseBaseSeq]

/-- What is left of a key's text after the prefix of an object's entries. -/
theorem strip_log (id : Part) (k : PlainKey) :
    (logText id.1).isPrefixOf? (text k) = (parseLogSeq id k).map padded := by
  ext rest
  rw [List.isPrefixOf?_eq_some_iff_append_eq, logText_eq, numbered_append, Option.map_eq_some_iff]
  constructor
  · rintro ⟨seq, rfl, ⟨_, rfl⟩ | ⟨hletter, _⟩⟩
    · exact ⟨seq, parseLogSeq_eq_some.mpr rfl, rfl⟩
    · exact absurd hletter (by decide)
  · rintro ⟨seq, hseq, rfl⟩
    exact ⟨seq, rfl, .inl ⟨rfl, parseLogSeq_eq_some.mp hseq⟩⟩

theorem strip_base (id : Part) (k : PlainKey) :
    (baseText id.1).isPrefixOf? (text k) = (parseBaseSeq id k).map padded := by
  ext rest
  rw [List.isPrefixOf?_eq_some_iff_append_eq, baseText_eq, numbered_append, Option.map_eq_some_iff]
  constructor
  · rintro ⟨seq, rfl, ⟨hletter, _⟩ | ⟨_, rfl⟩⟩
    · exact absurd hletter (by decide)
    · exact ⟨seq, parseBaseSeq_eq_some.mpr rfl, rfl⟩
  · rintro ⟨seq, hseq, rfl⟩
    exact ⟨seq, rfl, .inr ⟨rfl, parseBaseSeq_eq_some.mp hseq⟩⟩

/-- Different keys have different texts. -/
theorem text_injective : Function.Injective text := by
  intro k k' h
  cases k with
  | log id seq =>
    have hstrip := strip_log id k'
    rw [← h, strip_log, parseLogSeq_eq_some.mpr rfl] at hstrip
    obtain ⟨seq', hseq', hpadded⟩ := Option.map_eq_some_iff.mp hstrip.symm
    rw [parseLogSeq_eq_some.mp hseq', padded_injective hpadded]
  | base id seq =>
    have hstrip := strip_base id k'
    rw [← h, strip_base, parseBaseSeq_eq_some.mpr rfl] at hstrip
    obtain ⟨seq', hseq', hpadded⟩ := Option.map_eq_some_iff.mp hstrip.symm
    rw [parseBaseSeq_eq_some.mp hseq', padded_injective hpadded]
  | outcome txn =>
    rw [text_outcome] at h
    cases k' with
    | outcome txn' =>
      rw [text_outcome] at h
      rw [(named_inj (List.append_cancel_left h)).1]
    | log id seq =>
      rw [text_log] at h
      cases (List.cons.inj h).1
    | base id seq =>
      rw [text_base] at h
      cases (List.cons.inj h).1
    | staging txn' id =>
      rw [text_staging] at h
      cases (List.cons.inj h).1
  | staging txn id =>
    rw [text_staging] at h
    cases k' with
    | staging txn' id' =>
      rw [text_staging] at h
      obtain ⟨htxn, hrest⟩ :=
        append_sep_inj txn.2.2.1 txn'.2.2.1 (List.append_cancel_left h)
      rw [Subtype.ext htxn, (named_inj hrest).1]
    | log id' seq =>
      rw [text_log] at h
      cases (List.cons.inj h).1
    | base id' seq =>
      rw [text_base] at h
      cases (List.cons.inj h).1
    | outcome txn' =>
      rw [text_outcome] at h
      cases (List.cons.inj h).1

/-- The seq of a key is a u64. -/
def Fits : PlainKey → Prop
  | .log _ seq | .base _ seq => seq < 2 ^ 64
  | _ => True

theorem isPrefixOf_logText (id : Part) (k : PlainKey) :
    (logText id.1).isPrefixOf (text k) = logPrefix id k := by
  rw [← List.isSome_isPrefixOf?_eq_isPrefixOf, strip_log, Option.isSome_map, logPrefix]

theorem isPrefixOf_baseText (id : Part) (k : PlainKey) :
    (baseText id.1).isPrefixOf (text k) = basePrefix id k := by
  rw [← List.isSome_isPrefixOf?_eq_isPrefixOf, strip_base, Option.isSome_map, basePrefix]

theorem parseLogText_text (id : Part) {k : PlainKey} (h : Fits k) :
    parseLogText (text k) id.1 = parseLogSeq id k := by
  rw [parseLogText, parseSeq, strip_log, Option.bind_map]
  cases hparse : parseLogSeq id k with
  | none => rfl
  | some seq =>
    obtain rfl := parseLogSeq_eq_some.mp hparse
    exact parseUsize_padded h

theorem parseBaseText_text (id : Part) {k : PlainKey} (h : Fits k) :
    parseBaseText (text k) id.1 = parseBaseSeq id k := by
  rw [parseBaseText, parseSeq, strip_base, Option.bind_map]
  cases hparse : parseBaseSeq id k with
  | none => rfl
  | some seq =>
    obtain rfl := parseBaseSeq_eq_some.mp hparse
    exact parseUsize_padded h

/-- The keys of one object's entries sort as their seqs do. -/
theorem text_log_le_iff (id : Part) {a b : Nat} (ha : a < limit) (hb : b < limit) :
    text (.log id a) ≤ text (.log id b) ↔ a ≤ b := by
  have hlt {a b : Nat} (ha : a < limit) (hb : b < limit) (h : a < b) :
      text (.log id a) < text (.log id b) := by
    have hlen := (length_padded ha).trans (length_padded hb).symm
    have hpadded : padded a < padded b := by
      rw [lt_iff_value_lt (padded_digits a) (padded_digits b) hlen, value_padded, value_padded]
      exact h
    rw [text_log, text_log, named, named]
    have hmark : ['.', 'L', '.'] ++ padded a < ['.', 'L', '.'] ++ padded b :=
      List.append_left_lt hpadded
    exact List.append_left_lt (List.append_left_lt hmark)
  constructor
  · intro h
    by_contra hlt'
    exact absurd h (not_le.mpr (hlt hb ha (not_le.mp hlt')))
  · intro h
    obtain hlt' | rfl := lt_or_eq_of_le h
    · exact (hlt ha hb hlt').le
    · exact le_rfl

/-- The texts of the keys that begin with a prefix are those of the keys it stands for. -/
theorem filter_texts {keys : List PlainKey} {pre : Name} {wanted : PlainKey → Bool}
    (h : ∀ k, pre.isPrefixOf (text k) = wanted k) :
    (keys.map text).filter pre.isPrefixOf = (keys.filter wanted).map text := by
  rw [List.filter_map]
  exact congrArg _ (List.filter_congr fun k _ => h k)

theorem filterMap_logPrefix (id : Part) (keys : List PlainKey) :
    (keys.filter (logPrefix id)).map text =
      (keys.filterMap (parseLogSeq id)).map fun seq => text (.log id seq) := by
  induction keys with
  | nil => rfl
  | cons k keys ih =>
    cases hparse : parseLogSeq id k with
    | none =>
      have hnot : logPrefix id k = false := by rw [logPrefix, hparse]; rfl
      rw [List.filter_cons_of_neg (by simp [hnot]), List.filterMap_cons_none hparse, ih]
    | some seq =>
      have hyes : logPrefix id k = true := by rw [logPrefix, hparse]; rfl
      rw [List.filter_cons_of_pos hyes, List.filterMap_cons_some hparse, List.map_cons,
        List.map_cons, ih, parseLogSeq_eq_some.mp hparse]

/-- What a read makes of the listed texts, once they are sorted and parsed, is what it makes of the
keys: the seqs of the object's entries in order, and its highest base. -/
theorem listed_texts (id : Part) {keys : List PlainKey} (hfits : ∀ k ∈ keys, Fits k) :
    (sortKeys ((keys.map text).filter (logText id.1).isPrefixOf)).filterMap
        (fun key => parseLogText key id.1) = sortedSeqs id keys ∧
      ((sortKeys ((keys.map text).filter (baseText id.1).isPrefixOf)).filterMap
        (fun key => parseBaseText key id.1)).max? =
          ((keys.filter (basePrefix id)).filterMap (parseBaseSeq id)).max? := by
  constructor
  · have hseqs : ∀ seq ∈ keys.filterMap (parseLogSeq id), seq < 2 ^ 64 := by
      intro seq hseq
      obtain ⟨k, hk, hparse⟩ := List.mem_filterMap.mp hseq
      have hfit := hfits k hk
      rwa [parseLogSeq_eq_some.mp hparse] at hfit
    have hlimit : (2 : Nat) ^ 64 < limit := by decide
    rw [filter_texts (isPrefixOf_logText id), filterMap_logPrefix, sortKeys,
      ← List.map_insertionSort (· ≤ ·) (· ≤ ·) (fun seq => text (.log id seq))
        (keys.filterMap (parseLogSeq id)) fun a ha b hb =>
          (text_log_le_iff id ((hseqs a ha).trans hlimit) ((hseqs b hb).trans hlimit)).symm,
      List.filterMap_map, sortedSeqs]
    refine Lists.filterMap_some fun seq hseq => ?_
    rw [Function.comp_apply, parseLogText_text id
      (k := .log id seq) (hseqs seq ((List.perm_insertionSort _ _).mem_iff.mp hseq))]
    exact parseLogSeq_eq_some.mpr rfl
  · rw [filter_texts (isPrefixOf_baseText id)]
    refine (Lists.max?_perm ((List.perm_insertionSort _ _).filterMap _)).trans ?_
    rw [List.filterMap_map]
    refine congrArg List.max? (List.filterMap_congr fun k hk => ?_)
    exact parseBaseText_text id (hfits k (List.mem_filter.mp hk).1)

def partA : Part := ⟨['a'], by decide⟩

/-- The keys of two entries and a base, not in order. -/
def someKeys (id : Part) : List PlainKey := [.log id 10, .base id 8, .log id 9]

theorem listed_texts_someKeys :
    (sortKeys (((someKeys partA).map text).filter
        (logText partA.1).isPrefixOf)).filterMap
        (fun key => parseLogText key partA.1) =
          sortedSeqs partA (someKeys partA) ∧
      ((sortKeys (((someKeys partA).map text).filter
        (baseText partA.1).isPrefixOf)).filterMap
        (fun key => parseBaseText key partA.1)).max? =
          (((someKeys partA).filter (basePrefix partA)).filterMap
            (parseBaseSeq partA)).max? := by
  refine listed_texts partA fun k hk => ?_
  simp only [someKeys, List.mem_cons, List.not_mem_nil, or_false] at hk
  obtain rfl | rfl | rfl := hk
  · exact (by decide : 10 < 2 ^ 64)
  · exact (by decide : 8 < 2 ^ 64)
  · exact (by decide : 9 < 2 ^ 64)

theorem named_proper (id : Part) {more : Name} (h : '/' ∉ more) :
    FsStore.Proper (named id.1 more) := by
  obtain ⟨name, hne, hslash, hdot⟩ := id
  cases name with
  | nil => exact absurd rfl hne
  | cons c name =>
    refine ⟨by simp [named], ?_, ?_, ?_⟩
    · intro heq
      have hlen := congrArg List.length heq
      simp [named] at hlen
    · intro heq
      exact hdot ((List.cons.inj heq).1 ▸ List.mem_cons_self)
    · simp only [named, List.mem_append, List.mem_cons, not_or]
      exact ⟨by simpa using hslash, by decide, h⟩

/-- Where a key's file is. -/
def filePath (k : PlainKey) : Path :=
  match k with
  | .log id seq => [named id.1 (['L', '.'] ++ padded seq), ['o', 'b', 'j', 'e', 'c', 't', 's']]
  | .base id seq => [named id.1 (['B', '.'] ++ padded seq), ['o', 'b', 'j', 'e', 'c', 't', 's']]
  | .outcome txn => [named txn.1 ['O'], ['t', 'x', 'n', 's']]
  | .staging txn id =>
    [named id.1 ['s', 'n', 'a', 'p'], txn.1, ['s', 't', 'a', 'g', 'i', 'n', 'g']]

theorem slash_padded (letter : Char) (hletter : letter ≠ '/') (seq : Nat) :
    '/' ∉ [letter, '.'] ++ padded seq := by
  intro h
  rw [List.mem_append] at h
  obtain hmark | hdigit := h
  · simp [hletter.symm] at hmark
  · exact absurd (padded_digits seq _ hdigit) (by decide)

theorem pathFor_text (k : PlainKey) : pathFor (text k) = some (filePath k) := by
  have hobjects : FsStore.Proper ['o', 'b', 'j', 'e', 'c', 't', 's'] := by decide
  have htxns : FsStore.Proper ['t', 'x', 'n', 's'] := by decide
  have hstaging : FsStore.Proper ['s', 't', 'a', 'g', 'i', 'n', 'g'] := by decide
  cases k with
  | log id seq =>
    have hname := named_proper id (slash_padded 'L' (by decide) seq)
    rw [text_log]
    exact FsStore.pathFor_cons hobjects (FsStore.pathFor_proper hname)
  | base id seq =>
    have hname := named_proper id (slash_padded 'B' (by decide) seq)
    rw [text_base]
    exact FsStore.pathFor_cons hobjects (FsStore.pathFor_proper hname)
  | outcome txn =>
    have hname : FsStore.Proper (named txn.1 ['O']) := named_proper txn (by decide)
    rw [text_outcome]
    exact FsStore.pathFor_cons htxns (FsStore.pathFor_proper hname)
  | staging txn id =>
    have hname : FsStore.Proper (named id.1 ['s', 'n', 'a', 'p']) := named_proper id (by decide)
    rw [text_staging]
    exact FsStore.pathFor_cons hstaging
      (FsStore.pathFor_cons (FsStore.proper_part txn) (FsStore.pathFor_proper hname))

/-- What follows the last dot of a key is not what follows that of a temporary name. -/
theorem filePath_not_tmp (k : PlainKey) {uuid : Name} (hdot : '.' ∉ uuid) :
    ¬ IsTmp uuid (filePath k) := by
  have hseq (id : Part) (letter : Char) (seq : Nat) (dir : Path) :
      ¬ IsTmp uuid (named id.1 ([letter, '.'] ++ padded seq) :: dir) := by
    intro h
    have hdigits : '.' ∉ padded seq := fun hmem => absurd (padded_digits seq _ hmem) (by decide)
    have hafter := h.afterDot_eq hdot
    have hname : named id.1 ([letter, '.'] ++ padded seq) =
        (id.1 ++ ['.', letter]) ++ '.' :: padded seq := by simp [named]
    rw [hname, FsStore.afterDot_append _ hdigits] at hafter
    have hmem : 't' ∈ padded seq := hafter ▸ List.mem_cons_self
    exact absurd (padded_digits seq _ hmem) (by decide)
  have hlast (id : Part) (c : Char) (more : Name) (hc : c ≠ 't') (hmore : '.' ∉ c :: more)
      (dir : Path) : ¬ IsTmp uuid (named id.1 (c :: more) :: dir) := by
    intro h
    have hafter := h.afterDot_eq hdot
    rw [named, FsStore.afterDot_append _ hmore] at hafter
    exact hc (List.cons.inj hafter).1
  cases k with
  | log id seq => exact hseq id 'L' seq _
  | base id seq => exact hseq id 'B' seq _
  | outcome txn => exact hlast txn 'O' [] (by decide) (by decide) _
  | staging txn id => exact hlast id 's' ['n', 'a', 'p'] (by decide) (by decide) _

/-- No key of the log engine is a directory of another's, and none is a temporary file: the store in
files holds them. -/
def logLayout : Layout PlainKey where
  text := text
  path := filePath
  pathFor_text := pathFor_text
  text_injective := text_injective
  prefix_free k k' h := by
    have hlen := h.length_le
    cases k' with
    | log id seq => cases k <;> simp [filePath] at hlen
    | base id seq => cases k <;> simp [filePath] at hlen
    | outcome txn => cases k <;> simp [filePath] at hlen
    | staging txn id =>
      have hdir : filePath k = [txn.1, ['s', 't', 'a', 'g', 'i', 'n', 'g']] := by
        refine h.eq_of_length_le ?_
        cases k <;> simp [filePath]
      cases k <;> simp [filePath] at hdir
  not_tmp k _ hdot := filePath_not_tmp k hdot

end Fafo.KeyTexts
