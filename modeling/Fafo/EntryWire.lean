import Fafo.Library.Bytes
import Fafo.Objlog

/-! The wire format of log entries: `tag(1) | born(8 BE) | txn_len(2 BE) | txn | payload`. -/
namespace Fafo.EntryWire

open Bytes

/-- A full snapshot, or an encoded delta. -/
abbrev Payload := LogPayload (List UInt8) (List UInt8)

structure Entry where
  txn : String
  born : UInt64
  payload : Payload

def tagSnapshot : UInt8 := 0

def tagDelta : UInt8 := 1

def utf8 (s : String) : List UInt8 := s.toUTF8.data.toList

def fromUtf8 (bytes : List UInt8) : Option String := String.fromUTF8? ⟨bytes.toArray⟩

/-- `bytes.get(..n)`. -/
def upTo (n : Nat) (bytes : List UInt8) : Option (List UInt8) :=
  if n ≤ bytes.length then some (bytes.take n) else none

/-- `bytes.get(n..)`. -/
def since (n : Nat) (bytes : List UInt8) : Option (List UInt8) :=
  if n ≤ bytes.length then some (bytes.drop n) else none

/-- The length of the name is cut to a u16. -/
def encodeEntry (txn : String) (born : UInt64) (p : Payload) : List UInt8 :=
  let (tag, body) := match p with
    | .snapshot bytes => (tagSnapshot, bytes)
    | .delta bytes => (tagDelta, bytes)
  let t := utf8 txn
  tag :: (toBE 8 born.toNat ++ (toBE 2 t.length ++ (t ++ body)))

def decodeEntry (bytes : List UInt8) : Option Entry :=
  match bytes with
  | [] => none
  | tag :: rest =>
    (upTo 8 rest).bind fun born =>
    (since 8 rest).bind fun rest =>
    rest.head?.bind fun high =>
    rest[1]?.bind fun low =>
    (since 2 rest).bind fun rest =>
    (upTo (fromBE [high, low]) rest).bind fun name =>
    (fromUtf8 name).bind fun txn =>
    (since (fromBE [high, low]) rest).bind fun body =>
    if tag = tagSnapshot then some ⟨txn, UInt64.ofNat (fromBE born), .snapshot body⟩
    else if tag = tagDelta then some ⟨txn, UInt64.ofNat (fromBE born), .delta body⟩
    else none

theorem fromUtf8_eq_some {bytes : List UInt8} {s : String} :
    fromUtf8 bytes = some s ↔ utf8 s = bytes := by
  unfold fromUtf8 String.fromUTF8? utf8
  constructor
  · intro h
    split_ifs at h
    cases h
    rfl
  · rintro rfl
    have hvalid : (⟨s.toUTF8.data.toList.toArray⟩ : ByteArray).IsValidUTF8 := s.isValidUTF8
    rw [dif_pos hvalid]
    rfl

theorem upTo_eq_some {n : Nat} {bytes front : List UInt8} :
    upTo n bytes = some front ↔ n ≤ bytes.length ∧ bytes.take n = front := by
  unfold upTo
  split_ifs with h
  · simp [h]
  · simp [h]

theorem since_eq_some {n : Nat} {bytes rest : List UInt8} :
    since n bytes = some rest ↔ n ≤ bytes.length ∧ bytes.drop n = rest := by
  unfold since
  split_ifs with h
  · simp [h]
  · simp [h]

/-- The header, and what follows it. -/
theorem decodeEntry_cons (tag : UInt8) (born : UInt64) {name body : List UInt8} {txn : String}
    (hname : utf8 txn = name) (hlen : name.length < 2 ^ 16) :
    decodeEntry (tag :: (toBE 8 born.toNat ++ (toBE 2 name.length ++ (name ++ body)))) =
      if tag = tagSnapshot then some ⟨txn, born, .snapshot body⟩
      else if tag = tagDelta then some ⟨txn, born, .delta body⟩
      else none := by
  have hborn : UInt64.ofNat (fromBE (toBE 8 born.toNat)) = born := by
    rw [fromBE_toBE born.toNat_lt, UInt64.ofNat_toNat]
  obtain ⟨high, low, hfield⟩ : ∃ high low, toBE 2 name.length = [high, low] := ⟨_, _, rfl⟩
  have hcount : fromBE [high, low] = name.length := by
    rw [← hfield]
    exact fromBE_toBE hlen
  have hfront : upTo 8 (toBE 8 born.toNat ++ (high :: low :: (name ++ body))) =
      some (toBE 8 born.toNat) :=
    upTo_eq_some.mpr ⟨by simp, List.take_left' (length_toBE 8 _)⟩
  have hback : since 8 (toBE 8 born.toNat ++ (high :: low :: (name ++ body))) =
      some (high :: low :: (name ++ body)) :=
    since_eq_some.mpr ⟨by simp, List.drop_left' (length_toBE 8 _)⟩
  have hrest : since 2 (high :: low :: (name ++ body)) = some (name ++ body) :=
    since_eq_some.mpr ⟨by simp, rfl⟩
  have htxn : upTo name.length (name ++ body) = some name :=
    upTo_eq_some.mpr ⟨by simp, List.take_left⟩
  have hbody : since name.length (name ++ body) = some body :=
    since_eq_some.mpr ⟨by simp, List.drop_left⟩
  unfold decodeEntry
  rw [hfield]
  dsimp only [List.cons_append, List.nil_append]
  rw [hfront, Option.bind_some, hback, Option.bind_some]
  dsimp only [List.head?_cons, List.getElem?_cons_succ, List.getElem?_cons_zero, Option.bind_some]
  rw [hrest, Option.bind_some, hcount, htxn, Option.bind_some, fromUtf8_eq_some.mpr hname,
    Option.bind_some, hbody, Option.bind_some, hborn]

theorem decode_encodeEntry {txn : String} (born : UInt64) (p : Payload)
    (hlen : (utf8 txn).length ≤ 65535) :
    decodeEntry (encodeEntry txn born p) = some ⟨txn, born, p⟩ := by
  unfold encodeEntry
  cases p with
  | snapshot body => exact decodeEntry_cons tagSnapshot born rfl (by omega)
  | delta body => exact decodeEntry_cons tagDelta born rfl (by omega)

/-- The bytes that an entry was decoded from. -/
theorem decodeEntry_eq_some {bytes : List UInt8} {e : Entry} (h : decodeEntry bytes = some e) :
    (utf8 e.txn).length ≤ 65535 ∧ encodeEntry e.txn e.born e.payload = bytes := by
  unfold decodeEntry at h
  split at h
  · cases h
  · rename_i tag rest
    obtain ⟨born, hborn, h⟩ := Option.bind_eq_some_iff.mp h
    obtain ⟨rest₁, hrest₁, h⟩ := Option.bind_eq_some_iff.mp h
    obtain ⟨high, hhigh, h⟩ := Option.bind_eq_some_iff.mp h
    obtain ⟨low, hlow, h⟩ := Option.bind_eq_some_iff.mp h
    obtain ⟨rest₂, hrest₂, h⟩ := Option.bind_eq_some_iff.mp h
    obtain ⟨name, hname, h⟩ := Option.bind_eq_some_iff.mp h
    obtain ⟨txn, htxn, h⟩ := Option.bind_eq_some_iff.mp h
    obtain ⟨body, hbody, h⟩ := Option.bind_eq_some_iff.mp h
    obtain ⟨height, hborn⟩ := upTo_eq_some.mp hborn
    obtain ⟨-, hrest₁⟩ := since_eq_some.mp hrest₁
    obtain ⟨-, hrest₂⟩ := since_eq_some.mp hrest₂
    obtain ⟨hfits, hname⟩ := upTo_eq_some.mp hname
    obtain ⟨-, hbody⟩ := since_eq_some.mp hbody
    rw [fromUtf8_eq_some] at htxn
    have hnamelen : name.length = fromBE [high, low] := by
      rw [← hname]
      exact List.length_take_of_le hfits
    have hheader : rest₁ = high :: low :: rest₂ := by
      rw [← hrest₂]
      match rest₁, hhigh, hlow with
      | _ :: _ :: _, rfl, rfl => rfl
    have hbornBytes : toBE 8 (UInt64.ofNat (fromBE born)).toNat = born := by
      have hlen : born.length = 8 := by
        rw [← hborn]
        exact List.length_take_of_le height
      have hlt : fromBE born < 2 ^ 64 := by
        have hbound := fromBE_lt born
        rwa [hlen] at hbound
      have hall := toBE_fromBE born
      rw [UInt64.toNat_ofNat', Nat.mod_eq_of_lt hlt]
      rwa [hlen] at hall
    have hcountBytes : toBE 2 name.length = [high, low] := by
      rw [hnamelen]
      exact toBE_fromBE [high, low]
    have hbytes : rest = born ++ (high :: low :: (name ++ body)) := by
      rw [← hname, ← hbody, List.take_append_drop, ← hheader, ← hborn, ← hrest₁,
        List.take_append_drop]
    have hsmall : name.length ≤ 65535 := by
      have hbound : fromBE [high, low] < 256 ^ 2 := fromBE_lt [high, low]
      omega
    split_ifs at h with hsnapshot hdelta
    · cases h
      refine ⟨htxn ▸ hsmall, ?_⟩
      unfold encodeEntry
      dsimp only
      rw [htxn, hbornBytes, hcountBytes, hbytes, hsnapshot]
      rfl
    · cases h
      refine ⟨htxn ▸ hsmall, ?_⟩
      unfold encodeEntry
      dsimp only
      rw [htxn, hbornBytes, hcountBytes, hbytes, hdelta]
      rfl

/-- An entry whose name fits comes back from its encoding, and what is decoded was encoded just so.
-/
theorem entry_wire :
    (∀ txn born p, (utf8 txn).length ≤ 65535 →
      decodeEntry (encodeEntry txn born p) = some ⟨txn, born, p⟩) ∧
    ∀ bytes e, decodeEntry bytes = some e → encodeEntry e.txn e.born e.payload = bytes :=
  ⟨fun _ born p hlen => decode_encodeEntry born p hlen, fun _ _ h => (decodeEntry_eq_some h).2⟩

theorem entry_wire_snapshot :
    decodeEntry (encodeEntry "b655-7" 4200 (.snapshot [1, 2, 3])) =
      some ⟨"b655-7", 4200, .snapshot [1, 2, 3]⟩ :=
  entry_wire.1 "b655-7" 4200 (.snapshot [1, 2, 3]) (by decide)

end Fafo.EntryWire
