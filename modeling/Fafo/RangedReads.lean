import Fafo.Library.Words
import Fafo.BootIds
import Fafo.DeltaWire

/-! Ranged reads: the `get_range` of each store, against the part of the blob it is asked for. -/
namespace Fafo.RangedReads

open Words
open Deltas (slice slice_eq)

/-- What comes of a call. A key that is missing is `ok none`. -/
inductive Answer where
  | panic
  | error
  | ok (bytes : Option (List UInt8))
  deriving DecidableEq

/-- The sum is taken first, then both ends are cut to the blob. -/
def clamped (build : Build) (bytes : List UInt8) (offset len : Nat) : Option (List UInt8) :=
  (add build offset len).bind fun sum =>
    slice bytes (min offset bytes.length) (min sum bytes.length)

def ofWhole (build : Build) (blob : Option (List UInt8)) (offset len : Nat) : Answer :=
  match blob with
  | none => .ok none
  | some bytes =>
    match clamped build bytes offset len with
    | none => .panic
    | some bytes => .ok (some bytes)

def BlobStore.getRange (build : Build) (blob : Option (List UInt8)) (offset len : Nat) : Answer :=
  ofWhole build blob offset len

def MemBlobStore.getRange (build : Build) (blob : Option (List UInt8)) (offset len : Nat) :
    Answer :=
  ofWhole build blob offset len

/-- The limits of the system: how far a file can be sought, how far a read may reach, and how large
a buffer can be. Positions and buffers are signed numbers to it. -/
structure Host where
  maxSeek : Nat
  maxRead : Nat
  maxBuffer : Nat
  seek_lt : maxSeek < 2 ^ 63
  buffer_lt : maxBuffer < 2 ^ 63

/-- One read, of as many bytes as the system likes; of none only at the end of the file. -/
def read (gives : Nat → Nat) (file : List UInt8) (call pos room : Nat) : List UInt8 :=
  (file.drop pos).take (min room (max 1 (gives call)))

/-- The loop of reads into a buffer with `room` left; `none` is an error of the system. -/
def readLoop (host : Host) (gives : Nat → Nat) (file : List UInt8) (call pos : Nat)
    (buf : List UInt8) (room : Nat) : Option (List UInt8) :=
  if room = 0 then some buf
  else if host.maxRead < pos + room then none
  else
    let got := read gives file call pos room
    if got.length = 0 then some buf
    else readLoop host gives file (call + 1) (pos + got.length) (buf ++ got) (room - got.length)
termination_by room
decreasing_by
  show room - (read gives file call pos room).length < room
  have hgot : (read gives file call pos room).length ≠ 0 := ‹_›
  omega

def FsBlobStore.getRange (host : Host) (gives : Nat → Nat) (blob : Option (List UInt8))
    (offset len : Nat) : Answer :=
  match blob with
  | none => .ok none
  | some file =>
    if host.maxSeek < offset then .error
    else if host.maxBuffer < len then .panic
    else
      match readLoop host gives file 0 offset [] len with
      | none => .error
      | some bytes => .ok (some bytes)

structure Response where
  status : Nat
  body : List UInt8

/-- The range header: its end is inclusive. -/
def rangeHeader (first last : Nat) : String := s!"bytes={first}-{last}"

/-- What the server answers to an attempt with a header, if the answer arrives. -/
abbrev Server := Nat → String → Option (List UInt8) → Option Response

/-- An attempt: `ok none` is transient. -/
def onResponse : Option Response → Except Unit (Option (Option (List UInt8)))
  | none => .error ()
  | some r =>
    if r.status = 200 ∨ r.status = 206 then .ok (some (some r.body))
    else if r.status = 404 then .ok (some none)
    else if r.status = 416 then .ok (some (some []))
    else if 500 ≤ r.status then .ok none
    else .error ()

def retries : Nat := 3

/-- The attempts that are left; the last failure is the answer. -/
def withRetries {α : Type} (op : Nat → Except Unit (Option α)) : Nat → Nat → Except Unit α
  | 0, _ => .error ()
  | left + 1, attempt =>
    match op attempt with
    | .ok (some v) => .ok v
    | _ => withRetries op left (attempt + 1)

def R2BlobStore.getRange (build : Build) (server : Server) (blob : Option (List UInt8))
    (offset len : Nat) : Answer :=
  match (add build offset len).bind fun sum => sub build sum 1 with
  | none => .panic
  | some last =>
    let range := rangeHeader offset last
    match withRetries (fun attempt => onResponse (server attempt range blob)) retries 0 with
    | .ok bytes => .ok bytes
    | .error _ => .error

/-- A range is cut to the blob, and 416 if it begins past its end; one that ends before it begins
is no range, and the whole blob comes back. -/
def served (first last : Nat) : Option (List UInt8) → Response
  | none => ⟨404, []⟩
  | some bytes =>
    if last < first then ⟨200, bytes⟩
    else if bytes.length ≤ first then ⟨416, []⟩
    else ⟨206, (bytes.take (last + 1)).drop first⟩

/-- The server answers so at some attempt, and fails for a while before. -/
def S3 (server : Server) : Prop :=
  ∃ attempt < retries,
    (∀ earlier < attempt, ∀ header blob, ∀ r ∈ server earlier header blob, 500 ≤ r.status) ∧
    ∀ first last blob, server attempt (rangeHeader first last) blob = some (served first last blob)

variable {build : Build} {host : Host} {gives : Nat → Nat} {server : Server}
  {bytes : List UInt8} {offset len : Nat}

/-- The bytes from the offset to before the offset plus the length, as far as the blob goes. -/
def part (bytes : List UInt8) (offset len : Nat) : List UInt8 := (bytes.drop offset).take len

/-- Every store returns the part. -/
structure Agree (build : Build) (host : Host) (gives : Nat → Nat) (server : Server)
    (bytes : List UInt8) (offset len : Nat) : Prop where
  default : BlobStore.getRange build (some bytes) offset len = .ok (some (part bytes offset len))
  fs : FsBlobStore.getRange host gives (some bytes) offset len =
    .ok (some (part bytes offset len))
  mem : MemBlobStore.getRange build (some bytes) offset len = .ok (some (part bytes offset len))
  r2 : R2BlobStore.getRange build server (some bytes) offset len =
    .ok (some (part bytes offset len))

theorem clamped_eq (h : offset + len < size) :
    clamped build bytes offset len = some (part bytes offset len) := by
  have hcut : min (offset + len) bytes.length - min offset bytes.length =
      min len (bytes.length - offset) := by omega
  rw [clamped, add_of_lt h, Option.bind_some, slice_eq (by omega) (by omega), hcut, part]
  by_cases hin : offset ≤ bytes.length
  · rw [Nat.min_eq_left hin, ← List.length_drop, ← List.take_eq_take_min]
  · have hpast : bytes.drop offset = [] := List.drop_eq_nil_of_le (by omega)
    have hall : min offset bytes.length = bytes.length := Nat.min_eq_right (by omega)
    rw [hall, hpast, List.drop_length, List.take_nil, List.take_nil]

theorem length_read (gives : Nat → Nat) (file : List UInt8) (call pos room : Nat) :
    (read gives file call pos room).length =
      min (min room (max 1 (gives call))) (file.length - pos) := by
  rw [read, List.length_take, List.length_drop]

/-- What a read gives, and what is left to read, are what there was to read. -/
theorem read_append (file : List UInt8) (call pos room : Nat) :
    read gives file call pos room ++ part file (pos + (read gives file call pos room).length)
      (room - (read gives file call pos room).length) = part file pos room := by
  have hlength := length_read gives file call pos room
  have htake : read gives file call pos room =
      (part file pos room).take (read gives file call pos room).length := by
    rw [part, List.take_take, Nat.min_eq_left (by omega), hlength, ← List.length_drop,
      ← List.take_eq_take_min, read]
  have hdrop : part file (pos + (read gives file call pos room).length)
      (room - (read gives file call pos room).length) =
      (part file pos room).drop (read gives file call pos room).length := by
    rw [part, part, List.drop_take, List.drop_drop]
  rw [hdrop]
  nth_rewrite 1 [htake]
  exact List.take_append_drop _ _

/-- However the system cuts the reads, the loop fills the buffer or reaches the end. -/
theorem readLoop_eq (file : List UInt8) (call pos : Nat) (buf : List UInt8) (room : Nat) :
    readLoop host gives file call pos buf room =
      if room = 0 ∨ pos + room ≤ host.maxRead then some (buf ++ part file pos room)
      else none := by
  induction room using Nat.strong_induction_on generalizing call pos buf with
  | h room ih =>
    unfold readLoop
    by_cases hroom : room = 0
    · rw [if_pos hroom, if_pos (.inl hroom), hroom, part, List.take_zero, List.append_nil]
    · rw [if_neg hroom]
      by_cases hread : host.maxRead < pos + room
      · have hno : ¬ (room = 0 ∨ pos + room ≤ host.maxRead) := by omega
        rw [if_pos hread, if_neg hno]
      · have hyes : room = 0 ∨ pos + room ≤ host.maxRead := by omega
        rw [if_neg hread, if_pos hyes]
        have hlength := length_read gives file call pos room
        dsimp only
        by_cases hend : (read gives file call pos room).length = 0
        · have hpast : file.drop pos = [] := List.drop_eq_nil_of_le (by omega)
          rw [if_pos hend, part, hpast, List.take_nil, List.append_nil]
        · rw [if_neg hend, ih _ (by omega), if_pos (by omega), List.append_assoc, read_append]

theorem fs_getRange (file : List UInt8) (offset len : Nat) :
    FsBlobStore.getRange host gives (some file) offset len =
      if host.maxSeek < offset then .error
      else if host.maxBuffer < len then .panic
      else if len = 0 ∨ offset + len ≤ host.maxRead then .ok (some (part file offset len))
      else .error := by
  rw [FsBlobStore.getRange, readLoop_eq]
  by_cases hread : len = 0 ∨ offset + len ≤ host.maxRead
  · simp only [if_pos hread, List.nil_append]
  · simp only [if_neg hread]

theorem fs_ok_iff : FsBlobStore.getRange host gives (some bytes) offset len =
    .ok (some (part bytes offset len)) ↔
      offset ≤ host.maxSeek ∧ len ≤ host.maxBuffer ∧ (len = 0 ∨ offset + len ≤ host.maxRead) := by
  rw [fs_getRange]
  split_ifs with hseek hbuffer hread
  · exact ⟨nofun, fun h => by omega⟩
  · exact ⟨nofun, fun h => by omega⟩
  · exact ⟨fun _ => ⟨by omega, by omega, hread⟩, fun _ => rfl⟩
  · exact ⟨nofun, fun h => absurd h.2.2 hread⟩

theorem onResponse_served (first last : Nat) (blob : Option (List UInt8)) :
    onResponse (some (served first last blob)) = .ok (some (blob.map fun bytes =>
      if last < first then bytes else (bytes.take (last + 1)).drop first)) := by
  cases blob with
  | none => rfl
  | some bytes =>
    rw [served, Option.map_some]
    by_cases hnone : last < first
    · rw [if_pos hnone, if_pos hnone]
      rfl
    · rw [if_neg hnone, if_neg hnone]
      by_cases hpast : bytes.length ≤ first
      · have hnil : (bytes.take (last + 1)).drop first = [] :=
          List.drop_eq_nil_of_le (Nat.le_trans (List.length_take_le' ..) hpast)
        rw [if_pos hpast, hnil]
        rfl
      · rw [if_neg hpast]
        rfl

/-- The failures before the answer are transient, and there are retries enough. -/
theorem withRetries_served {α : Type} {op : Nat → Except Unit (Option α)} {v : α}
    {left attempt answered : Nat} (hle : attempt ≤ answered) (hlt : answered < attempt + left)
    (hbefore : ∀ earlier, attempt ≤ earlier → earlier < answered → ∀ w, op earlier ≠ .ok (some w))
    (hop : op answered = .ok (some v)) : withRetries op left attempt = .ok v := by
  induction left generalizing attempt with
  | zero => omega
  | succ left ih =>
    rcases Nat.eq_or_lt_of_le hle with rfl | hgt
    · rw [withRetries, hop]
    · have hfail := hbefore attempt (Nat.le_refl _) hgt
      have hrest : withRetries op left (attempt + 1) = .ok v :=
        ih hgt (by omega) fun earlier he => hbefore earlier (by omega)
      rw [withRetries]
      split
      · next w hw => exact absurd hw (hfail w)
      · exact hrest

theorem r2_getRange (hs : S3 server) {last : Nat}
    (hlast : ((add build offset len).bind fun sum => sub build sum 1) = some last) :
    R2BlobStore.getRange build server (some bytes) offset len =
      .ok (some (if last < offset then bytes else (bytes.take (last + 1)).drop offset)) := by
  obtain ⟨answered, hlt, hbefore, hserved⟩ := hs
  have hop : onResponse (server answered (rangeHeader offset last) (some bytes)) =
      .ok (some (some (if last < offset then bytes else (bytes.take (last + 1)).drop offset))) := by
    rw [hserved, onResponse_served, Option.map_some]
  have hretries : withRetries (fun attempt =>
      onResponse (server attempt (rangeHeader offset last) (some bytes))) retries 0 =
      .ok (some (if last < offset then bytes else (bytes.take (last + 1)).drop offset)) := by
    refine withRetries_served (Nat.zero_le answered) (by omega) (fun earlier _ he w => ?_) hop
    cases hr : server earlier (rangeHeader offset last) (some bytes) with
    | none => simp [onResponse]
    | some r =>
      have hstatus := hbefore earlier he _ _ r hr
      rw [onResponse, if_neg (by omega), if_neg (by omega), if_neg (by omega), if_pos hstatus]
      simp
  rw [R2BlobStore.getRange, hlast]
  simp only [hretries]

theorem r2_of_pos (hs : S3 server) (hpos : 0 < len) (h : offset + len < size) :
    R2BlobStore.getRange build server (some bytes) offset len =
      .ok (some (part bytes offset len)) := by
  have hlast : ((add build offset len).bind fun sum => sub build sum 1) =
      some (offset + len - 1) := by
    rw [add_of_lt h, Option.bind_some, sub_of_le (by omega)]
  rw [r2_getRange hs hlast, if_neg (by omega), List.drop_take, part]
  congr 3
  omega

/-- The header of a read of no bytes brings the whole blob: it is no range, or it has wrapped to one
of all bytes. -/
theorem r2_of_zero (hs : S3 server) (ho : offset < size) :
    ∃ whole : List UInt8, (whole = [] ↔ bytes = []) ∧
      R2BlobStore.getRange build server (some bytes) offset 0 =
        if build = .release ∨ 0 < offset then .ok (some whole) else .panic := by
  have hsum : add build offset 0 = some offset := add_of_lt ho
  by_cases hpos : 0 < offset
  · have hlast : ((add build offset 0).bind fun sum => sub build sum 1) = some (offset - 1) := by
      rw [hsum, Option.bind_some, sub_of_le hpos]
    refine ⟨bytes, Iff.rfl, ?_⟩
    rw [r2_getRange hs hlast, if_pos (by omega), if_pos (.inr hpos)]
  · obtain rfl : offset = 0 := by omega
    cases build with
    | debug =>
      refine ⟨bytes, Iff.rfl, ?_⟩
      rw [R2BlobStore.getRange, hsum]
      rfl
    | release =>
      have hlast : ((add .release 0 0).bind fun sum => sub .release sum 1) = some (size - 1) := by
        decide
      refine ⟨bytes.take size, ?_, ?_⟩
      · rw [List.take_eq_nil_iff]
        exact or_iff_right (by decide)
      · rw [r2_getRange hs hlast, if_neg (by omega), if_pos (.inl rfl)]
        rfl

theorem r2_ok_iff (hs : S3 server) (h : offset + len < size) :
    R2BlobStore.getRange build server (some bytes) offset len =
      .ok (some (part bytes offset len)) ↔
      0 < len ∨ (bytes = [] ∧ (build = .release ∨ 0 < offset)) := by
  rcases Nat.eq_zero_or_pos len with rfl | hpos
  · obtain ⟨whole, hwhole, heq⟩ := @r2_of_zero build server bytes offset hs h
    have hnone : part bytes offset 0 = [] := List.take_zero
    rw [heq, hnone]
    split_ifs with hbuild
    · constructor
      · intro hnil
        cases hnil
        exact .inr ⟨hwhole.mp rfl, hbuild⟩
      · rintro (hlt | ⟨hnil, _⟩)
        · omega
        · rw [hwhole.mpr hnil]
    · constructor
      · intro hpanic
        cases hpanic
      · rintro (hlt | ⟨_, hfine⟩)
        · omega
        · exact absurd hfine hbuild
  · exact ⟨fun _ => .inl hpos, fun _ => r2_of_pos hs hpos h⟩

theorem ofWhole_eq (h : offset + len < size) :
    ofWhole build (some bytes) offset len = .ok (some (part bytes offset len)) := by
  rw [ofWhole, clamped_eq h]

/-- The limits keep the sum of the two a word. -/
theorem Host.add_lt_size (host : Host) (hseek : offset ≤ host.maxSeek)
    (hbuffer : len ≤ host.maxBuffer) : offset + len < size := by
  have hseek' := host.seek_lt
  have hbuffer' := host.buffer_lt
  show offset + len < 2 ^ 64
  omega

/-- The stores return the same part exactly when the read is of some bytes, or of an empty blob,
and within the limits of the system. -/
theorem agree_iff (build : Build) (host : Host) (gives : Nat → Nat) {server : Server}
    (hs : S3 server) (bytes : List UInt8) (offset len : Nat) :
    Agree build host gives server bytes offset len ↔
      (0 < len ∨ (bytes = [] ∧ (build = .release ∨ 0 < offset))) ∧
        offset ≤ host.maxSeek ∧ len ≤ host.maxBuffer ∧
        (len = 0 ∨ offset + len ≤ host.maxRead) := by
  constructor
  · intro h
    have hfs := fs_ok_iff.mp h.fs
    have hsum := host.add_lt_size hfs.1 hfs.2.1
    exact ⟨(r2_ok_iff hs hsum).mp h.r2, hfs⟩
  · rintro ⟨hsome, hfs⟩
    have hsum := host.add_lt_size hfs.1 hfs.2.1
    exact ⟨ofWhole_eq hsum, fs_ok_iff.mpr hfs, ofWhole_eq hsum, (r2_ok_iff hs hsum).mpr hsome⟩

/-- A server that reads the two numbers of the header back. -/
def bucket : Server := fun _ header blob =>
  let range := header.toList.drop 6
  let first := range.takeWhile (· ≠ '-')
  let last := (range.dropWhile (· ≠ '-')).drop 1
  some (served (Nat.ofDigitChars 10 first 0) (Nat.ofDigitChars 10 last 0) blob)

theorem s3_bucket : S3 bucket := by
  refine ⟨0, by decide, fun earlier he => absurd he (Nat.not_lt_zero earlier),
    fun first last blob => ?_⟩
  have hheader : (rangeHeader first last).toList.drop 6 =
      (toString first).toList ++ '-' :: (toString last).toList := by
    have hparts : rangeHeader first last =
        "bytes=" ++ toString first ++ "-" ++ toString last := rfl
    have hprefix : "bytes=".toList = ['b', 'y', 't', 'e', 's', '='] := rfl
    have hdash : "-".toList = ['-'] := rfl
    rw [hparts]
    simp only [String.toList_append, hprefix, hdash, List.append_assoc, List.cons_append,
      List.nil_append, List.drop_succ_cons, List.drop_zero]
  have hfirst : ∀ c ∈ (toString first).toList, decide (c ≠ '-') = true := by
    intro c hc
    exact decide_eq_true fun he => Boot.dash_notMem_toString first (he ▸ hc)
  have hread : ∀ n : Nat, Nat.ofDigitChars 10 (toString n).toList 0 = n := by
    intro n
    rw [Nat.toString_eq_repr, Nat.toList_repr, Nat.ofDigitChars_ten_toDigits]
  simp only [bucket, hheader]
  rw [List.takeWhile_append_of_pos hfirst, List.takeWhile_cons_of_neg (by decide),
    List.append_nil, List.dropWhile_append_of_pos hfirst, List.dropWhile_cons_of_neg (by decide),
    List.drop_succ_cons, List.drop_zero, hread, hread]

def linux : Host := ⟨2 ^ 63 - 1, 2 ^ 63 - 1, 2 ^ 40, by decide, by decide⟩

def digits : List UInt8 := [48, 49, 50, 51, 52, 53, 54, 55, 56, 57]

theorem agree_iff_clamped : Agree .release linux (fun _ => 3) bucket digits 8 100 ↔
    (0 < 100 ∨ (digits = [] ∧ (Build.release = .release ∨ 0 < 8))) ∧
      8 ≤ linux.maxSeek ∧ 100 ≤ linux.maxBuffer ∧ (100 = 0 ∨ 8 + 100 ≤ linux.maxRead) :=
  agree_iff .release linux (fun _ => 3) s3_bucket digits 8 100

/-- A read of no bytes at 2 is the whole blob at R2, and a read of one at 2^63 is an error of the
system in a file; both are empty to the default and in memory. -/
theorem ranged_reads_differ :
    ¬ Agree .release linux (fun _ => 3) bucket digits 2 0 ∧
      ¬ Agree .release linux (fun _ => 3) bucket digits (2 ^ 63) 1 ∧
      R2BlobStore.getRange .release bucket (some digits) 2 0 = .ok (some digits) ∧
      MemBlobStore.getRange .release (some digits) 2 0 = .ok (some []) ∧
      FsBlobStore.getRange linux (fun _ => 3) (some digits) (2 ^ 63) 1 = .error ∧
      MemBlobStore.getRange .release (some digits) (2 ^ 63) 1 = .ok (some []) := by
  have hlast : ((add .release 2 0).bind fun sum => sub .release sum 1) = some 1 := by decide
  have hr2 : R2BlobStore.getRange .release bucket (some digits) 2 0 = .ok (some digits) :=
    r2_getRange s3_bucket hlast
  have hfs : FsBlobStore.getRange linux (fun _ => 3) (some digits) (2 ^ 63) 1 = .error := by
    rw [fs_getRange]
    exact if_pos (by decide)
  refine ⟨fun h => ?_, fun h => ?_, hr2, by decide, hfs, by decide⟩
  · exact absurd (hr2.symm.trans h.r2) (by decide)
  · exact absurd (hfs.symm.trans h.fs) (by decide)

end Fafo.RangedReads
