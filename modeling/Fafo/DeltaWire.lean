import Fafo.Deltas

/-! The wire format of deltas: what is decoded, and that no read is out of range. -/
namespace Fafo.Deltas

open Bytes

variable {bytes : List UInt8} {delta : Delta}

/-- `&bytes[start..stop]`, which panics when the range is not in the bytes. -/
def slice (bytes : List UInt8) (start stop : Nat) : Option (List UInt8) :=
  if start ≤ stop ∧ stop ≤ bytes.length then some ((bytes.drop start).take (stop - start)) else none

/-- The loop of `decode`, from a position on. -/
def readPages (bytes : List UInt8) :
    Nat → Nat → Option (Except Corrupt (List (UInt32 × List UInt8)))
  | 0, _ => some (.ok [])
  | n + 1, position =>
    if bytes.length < position + 8 then some (.error .pageHeader)
    else
      (slice bytes position (position + 4)).bind fun pageNo =>
      (slice bytes (position + 4) (position + 8)).bind fun len =>
      if bytes.length < position + 8 + fromLE len then some (.error .page)
      else
        (slice bytes (position + 8) (position + 8 + fromLE len)).bind fun page =>
        (readPages bytes n (position + 8 + fromLE len)).map fun pages =>
          pages.map ((UInt32.ofNat (fromLE pageNo), page) :: ·)

/-- `decode` as the source reads its bytes. Nothing comes of a read that is out of range. -/
def readDelta (bytes : List UInt8) : Option (Except Corrupt Delta) :=
  if bytes.length < 20 then some (.error .tooShort)
  else
    (slice bytes 0 4).bind fun counter =>
    (slice bytes 4 12).bind fun fileLen =>
    (slice bytes 12 16).bind fun pageSize =>
    (slice bytes 16 20).bind fun n =>
    if (bytes.length - 20) / 8 < fromLE n then some (.error .pageCount)
    else
      (readPages bytes (fromLE n) 20).map fun pages => pages.map fun pages =>
        { counter := UInt32.ofNat (fromLE counter)
          fileLen := UInt64.ofNat (fromLE fileLen)
          pageSize := UInt32.ofNat (fromLE pageSize)
          pages := pages }

theorem slice_eq {start stop : Nat} (h : start ≤ stop) (hin : stop ≤ bytes.length) :
    slice bytes start stop = some ((bytes.drop start).take (stop - start)) := if_pos ⟨h, hin⟩

theorem readPages_eq (n position : Nat) :
    readPages bytes n position = some (decodePages n (bytes.drop position)) := by
  induction n generalizing position with
  | zero => rfl
  | succ n ih =>
    unfold readPages decodePages
    have hlen : (bytes.drop position).length = bytes.length - position := List.length_drop
    by_cases hshort : bytes.length < position + 8
    · rw [if_pos hshort, if_pos (by omega)]
    · rw [if_neg hshort, if_neg (by omega), slice_eq (by omega) (by omega),
        slice_eq (by omega) (by omega)]
      have hfour : position + 8 - (position + 4) = 4 := by omega
      have hno : position + 4 - position = 4 := by omega
      dsimp only [Option.bind_some]
      rw [hfour, hno, List.drop_drop, List.drop_drop, List.length_drop]
      generalize fromLE ((bytes.drop (position + 4)).take 4) = len
      by_cases hpage : bytes.length < position + 8 + len
      · rw [if_pos hpage, if_pos (by omega)]
      · rw [if_neg hpage, if_neg (by omega), slice_eq (by omega) (by omega), Option.bind_some, ih,
          Option.map_some, List.drop_drop]
        have hlast : position + 8 + len - (position + 8) = len := by omega
        rw [hlast]

/-- No read is out of range. -/
theorem readDelta_eq (bytes : List UInt8) : readDelta bytes = some (decode bytes) := by
  unfold readDelta decode
  split_ifs with hshort
  · rfl
  · rw [slice_eq (by omega) (by omega), slice_eq (by omega) (by omega),
      slice_eq (by omega) (by omega), slice_eq (by omega) (by omega)]
    dsimp only [Option.bind_some, List.drop_zero, Nat.sub_zero]
    split_ifs with hcount
    · rfl
    · rw [readPages_eq, Option.map_some]
      rfl

/-- The page count and the page lengths fit their fields. -/
structure Delta.Fits (delta : Delta) : Prop where
  count : delta.pages.length < 2 ^ 32
  lengths : ∀ p ∈ delta.pages, p.2.length < 2 ^ 32

/-- Pages that were read are encoded at the front of what they were read from. -/
theorem encode_decodePages {n : Nat} {pages : List (UInt32 × List UInt8)}
    (h : decodePages n bytes = .ok pages) :
    pages.length = n ∧ (∀ p ∈ pages, p.2.length < 2 ^ 32) ∧
      ∃ rest, bytes = pages.flatMap encodePage ++ rest := by
  induction n generalizing bytes pages with
  | zero =>
    cases h
    exact ⟨rfl, fun p hp => absurd hp List.not_mem_nil, bytes, rfl⟩
  | succ n ih =>
    unfold decodePages at h
    split_ifs at h with hshort
    generalize hlen : fromLE ((bytes.drop 4).take 4) = len at h
    dsimp only at h
    split_ifs at h with hpage
    cases hrest : decodePages n ((bytes.drop 8).drop len) with
    | error e =>
      rw [hrest] at h
      cases h
    | ok pages' =>
      rw [hrest] at h
      cases h
      obtain ⟨hcount, hlens, rest, hbytes⟩ := ih hrest
      have hfield : len < 256 ^ 4 := hlen ▸ fromLE_take_lt 4 (bytes.drop 4)
      have hbody : ((bytes.drop 8).take len).length = len := List.length_take_of_le (by omega)
      have hno : toLE 4 (UInt32.ofNat (fromLE (bytes.take 4))).toNat = bytes.take 4 := by
        rw [toNat_ofNat_u32 (fromLE_take_lt 4 bytes), toLE_fromLE_take (by omega)]
      have hlens' : toLE 4 len = (bytes.drop 4).take 4 := by
        rw [← hlen, toLE_fromLE_take (by rw [List.length_drop]; omega)]
      refine ⟨by rw [List.length_cons, hcount], ?_, rest, ?_⟩
      · refine List.forall_mem_cons.mpr ⟨?_, hlens⟩
        rw [hbody]
        exact hfield
      · rw [List.flatMap_cons, encodePage, hno]
        dsimp only
        rw [hbody, hlens', List.append_assoc, List.append_assoc, List.append_assoc, ← hbytes,
          List.take_append_drop, ← List.drop_drop (i := 4) (j := 4), List.take_append_drop,
          List.take_append_drop]

/-- What was read is encoded at the front of what it was read from. -/
theorem encode_decode (h : decode bytes = .ok delta) :
    delta.Fits ∧ ∃ rest, bytes = encode delta ++ rest := by
  unfold decode at h
  split_ifs at h with hshort
  generalize hn : fromLE ((bytes.drop 16).take 4) = n at h
  dsimp only at h
  split_ifs at h with hcount
  cases hpages : decodePages n (bytes.drop 20) with
  | error e =>
    rw [hpages] at h
    cases h
  | ok pages =>
    rw [hpages] at h
    cases h
    obtain ⟨hlength, hlens, rest, hbytes⟩ := encode_decodePages hpages
    have hn' : n < 256 ^ 4 := hn ▸ fromLE_take_lt 4 (bytes.drop 16)
    refine ⟨⟨by rw [hlength]; exact hn', hlens⟩, rest, ?_⟩
    have hfield {k : Nat} (start : Nat) (hin : start + k ≤ bytes.length) :
        toLE k (fromLE ((bytes.drop start).take k)) = (bytes.drop start).take k :=
      toLE_fromLE_take (by rw [List.length_drop]; omega)
    have hstep (start k : Nat) :
        (bytes.drop start).take k ++ bytes.drop (start + k) = bytes.drop start := by
      rw [← List.drop_drop, List.take_append_drop]
    have hcounter : (UInt32.ofNat (fromLE (bytes.take 4))).toNat = fromLE (bytes.take 4) :=
      toNat_ofNat_u32 (fromLE_take_lt 4 bytes)
    have hsize : (UInt32.ofNat (fromLE ((bytes.drop 12).take 4))).toNat =
        fromLE ((bytes.drop 12).take 4) := toNat_ofNat_u32 (fromLE_take_lt 4 _)
    have hfile : (UInt64.ofNat (fromLE ((bytes.drop 4).take 8))).toNat =
        fromLE ((bytes.drop 4).take 8) := by
      rw [UInt64.toNat_ofNat']
      exact Nat.mod_eq_of_lt (fromLE_take_lt 8 _)
    rw [encode]
    dsimp only
    rw [hcounter, hsize, hfile, hlength, ← hn, hfield 12 (by omega), hfield 4 (by omega),
      hfield 16 (by omega), toLE_fromLE_take (by omega)]
    simp only [List.append_assoc]
    rw [← hbytes, hstep 16 4, hstep 12 4, hstep 4 8, List.take_append_drop]

/-- A delta that fits its fields comes back from its encoding, every read of a decoding is in range,
and what is decoded is just what starts with an encoding. -/
theorem delta_wire : (∀ d : Delta, d.Fits → readDelta (encode d) = some (.ok d)) ∧
    ∀ bytes : List UInt8, ∃ result, readDelta bytes = some result ∧
      ∀ d, result = .ok d ↔ d.Fits ∧ ∃ rest, bytes = encode d ++ rest := by
  refine ⟨fun d hd => ?_, fun bytes => ⟨decode bytes, readDelta_eq bytes, fun d => ?_⟩⟩
  · rw [readDelta_eq, decode_encode d hd.count hd.lengths]
  · constructor
    · exact encode_decode
    · rintro ⟨hfits, rest, rfl⟩
      exact decode_append d rest hfits.count hfits.lengths

/-- A delta with a short last page. -/
def onePage : Delta where
  counter := 7
  fileLen := 3
  pageSize := 2
  pages := [(1, [9])]

theorem onePage_fits : onePage.Fits := ⟨by decide, by decide⟩

theorem delta_wire_onePage : readDelta (encode onePage) = some (.ok onePage) :=
  delta_wire.1 onePage onePage_fits

/-- What follows the last page goes unread. -/
theorem trailing_byte_accepted :
    ¬ ∀ bytes d, readDelta bytes = some (.ok d) → encode d = bytes := by
  intro h
  have hread : readDelta (encode onePage ++ [0]) = some (.ok onePage) := by decide
  exact absurd (h _ _ hread) (by decide)

end Fafo.Deltas
