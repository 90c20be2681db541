import Fafo.KeyTexts
import Fafo.PointOps
import Fafo.Library.Possibilities
import Fafo.Library.Solo

/-! The blob store in files looks atomic, and what fails there has not happened. -/
namespace Fafo.FsStore

open Interleave
open Listing (Name)

variable {K : Type}

/-- The operations, as the store carries them out. -/
def carryOut (layout : Layout K) (reader : Reader) :
    (o : PointOp K Bytes) → Call (Except Error o.op.Value)
  | .get key => get reader (layout.text key)
  | .put key bytes => put (layout.text key) bytes
  | .delete key => delete (layout.text key)
  | .create key bytes => create (layout.text key) bytes

/-- A process between two calls: the id it has drawn, the temporary file it writes, the one it has
still to remove, or the file it reads. -/
inductive Held where
  | idle
  | drew (uuid : Name)
  | wrote (uuid : Name) (tmp : Path) (ino : Ino) (bytes : Bytes)
  | linked (uuid : Name)
  | reads (ino : Ino) (bytes : Bytes)

namespace Held

def uuid : Held → Option Name
  | drew uuid | wrote uuid _ _ _ | linked uuid => some uuid
  | _ => none

/-- The file it writes to. -/
def writes : Held → Option Ino
  | wrote _ _ ino _ => some ino
  | _ => none

/-- The file it counts on. -/
def uses : Held → Option Ino
  | wrote _ _ ino _ | reads ino _ => some ino
  | _ => none

/-- Nobody else names its temporary file, and nobody else writes what it reads or writes. -/
def Own : Held → Fs → Prop
  | idle, _ => True
  | drew uuid, fs => uuid ∈ fs.drawn ∧ '.' ∉ uuid ∧
      ∀ path, IsTmp uuid path → fs.names.lookup path = none
  | wrote uuid tmp ino bytes, fs => uuid ∈ fs.drawn ∧ '.' ∉ uuid ∧ IsTmp uuid tmp ∧
      fs.names.lookup tmp = some ino ∧ (∀ path, fs.names.lookup path = some ino → path = tmp) ∧
      fs.content ino = bytes ∧ ino < fs.next
  | linked uuid, fs => uuid ∈ fs.drawn ∧ '.' ∉ uuid
  | reads ino bytes, fs => fs.content ino = bytes ∧ ino < fs.next

def apart (g h : Held) : Prop :=
  (∀ u, g.uuid = some u → h.uuid ≠ some u) ∧ (∀ i, g.writes = some i → h.uses ≠ some i) ∧
    ∀ i, h.writes = some i → g.uses ≠ some i

theorem uses_of_writes {g : Held} {i : Ino} (h : g.writes = some i) : g.uses = some i := by
  cases g with
  | wrote uuid tmp ino bytes => exact h
  | idle => cases h
  | drew uuid => cases h
  | linked uuid => cases h
  | reads ino bytes => cases h

theorem Own.drawn {g : Held} {fs : Fs} (h : g.Own fs) {u : Name} (hu : g.uuid = some u) :
    u ∈ fs.drawn ∧ '.' ∉ u := by
  cases g with
  | drew uuid => cases hu; exact ⟨h.1, h.2.1⟩
  | wrote uuid tmp ino bytes => cases hu; exact ⟨h.1, h.2.1⟩
  | linked uuid => cases hu; exact h
  | idle => cases hu
  | reads ino bytes => cases hu

theorem Own.lt_next {g : Held} {fs : Fs} (h : g.Own fs) {i : Ino} (hi : g.uses = some i) :
    i < fs.next := by
  cases g with
  | wrote uuid tmp ino bytes => cases hi; exact h.2.2.2.2.2.2
  | reads ino bytes => cases hi; exact h.2
  | idle => cases hi
  | drew uuid => cases hi
  | linked uuid => cases hi

end Held

/-- What a process that holds the id and writes the file leaves as it was for the others. -/
structure Spares (uuid : Option Name) (own : Option Ino) (fs fs' : Fs) : Prop where
  drawn : ∀ u ∈ fs.drawn, u ∈ fs'.drawn
  next : fs.next ≤ fs'.next
  tmps : ∀ u path, u ∈ fs.drawn → '.' ∉ u → some u ≠ uuid → IsTmp u path →
    fs'.names.lookup path = fs.names.lookup path
  content : ∀ i, i < fs.next → some i ≠ own → fs'.content i = fs.content i
  names : ∀ path i, fs'.names.lookup path = some i →
    fs.names.lookup path = some i ∨ some i = own ∨ fs.next ≤ i

theorem Held.Own.spared {h : Held} {fs fs' : Fs} {uuid : Option Name} {own : Option Ino}
    (hown : h.Own fs) (hs : Spares uuid own fs fs') (huuid : ∀ u, h.uuid = some u → uuid ≠ some u)
    (huses : ∀ i, h.uses = some i → own ≠ some i) : h.Own fs' := by
  cases h with
  | idle => trivial
  | drew u =>
    obtain ⟨hdrawn, hdot, hnone⟩ := hown
    refine ⟨hs.drawn u hdrawn, hdot, fun path htmp => ?_⟩
    rw [hs.tmps u path hdrawn hdot (huuid u rfl).symm htmp, hnone path htmp]
  | wrote u tmp ino bytes =>
    obtain ⟨hdrawn, hdot, htmp, hlookup, honly, hbytes, hlt⟩ := hown
    have hne : some ino ≠ own := (huses ino rfl).symm
    refine ⟨hs.drawn u hdrawn, hdot, htmp, ?_, fun path hpath => ?_, ?_, hlt.trans_le hs.next⟩
    · rw [hs.tmps u tmp hdrawn hdot (huuid u rfl).symm htmp, hlookup]
    · obtain hold | heq | hnew := hs.names path ino hpath
      · exact honly path hold
      · exact absurd heq hne
      · exact absurd (hlt.trans_le hnew) (Nat.lt_irrefl ino)
    · rw [hs.content ino hlt hne, hbytes]
  | linked u => exact ⟨hs.drawn u hown.1, hown.2⟩
  | reads ino bytes =>
    obtain ⟨hbytes, hlt⟩ := hown
    exact ⟨by rw [hs.content ino hlt (huses ino rfl).symm, hbytes], hlt.trans_le hs.next⟩

variable [DecidableEq K]

/-- The files at the keys' paths are the blobs. -/
structure Shows (layout : Layout K) (fs : Fs) (b : Blobs K Bytes) : Prop where
  files : ∀ k, (fs.names.lookup (layout.path k)).map fs.content = b.lookup k
  dirs : ∀ k, fs.isDir (layout.path k) = false
  numbered : ∀ path ino, fs.names.lookup path = some ino → ino < fs.next
  tmps : ∀ uuid path, '.' ∉ uuid → IsTmp uuid path → fs.names.lookup path ≠ none →
    uuid ∈ fs.drawn

/-- An id is drawn once, and has no dot. -/
def fresh (e : Chance) : SysOp → Fs → Prop
  | .newUuid, fs => e.uuid ∉ fs.drawn ∧ '.' ∉ e.uuid
  | _, _ => True

def layer (layout : Layout K) : Layer system (atomic K Bytes) Held where
  Rel := Shows layout
  Own := Held.Own
  apart := Held.apart
  idle := .idle
  admits := fresh
  apart_symm g h hgh := ⟨fun u hu hu' => hgh.1 u hu' hu, hgh.2.2, hgh.2.1⟩
  apart_idle g := ⟨fun u _ hu => (by cases hu), fun i _ hi => (by cases hi),
    fun i hi => (by cases hi)⟩
  own_idle _ := trivial

variable {layout : Layout K}

/-- A step after which a process holds what it held. -/
theorem Spares.frames {g g' : Held} {uuid : Option Name} {own : Option Ino} {fs fs' : Fs}
    (hs : Spares uuid own fs fs') (huuid : g.uuid = uuid) (hwrites : g.writes = own)
    (hg : ∀ h : Held, h.apart g → h.Own fs → h.apart g') : (layer layout).Frames g g' fs fs' := by
  subst huuid hwrites
  intro h hapart hown
  refine ⟨hown.spared hs (fun u hu => hapart.1 u hu) (fun i hi hi' => ?_), hg h hapart hown⟩
  exact hapart.2.2 i hi' hi

theorem Spares.refl (uuid : Option Name) (own : Option Ino) (fs : Fs) : Spares uuid own fs fs :=
  ⟨fun _ => id, le_rfl, fun _ _ _ _ _ _ => rfl, fun _ _ _ => rfl, fun _ _ => .inl⟩

theorem lookup_of_erase {V : Type} {names : Blobs Path V} {gone path : Path} {v : V}
    (h : (names.erase gone).lookup path = some v) : names.lookup path = some v := by
  by_cases heq : path = gone
  · subst heq
    rw [AList.lookup_erase] at h
    cases h
  · rwa [AList.lookup_erase_ne heq] at h

variable {fs fs' : Fs} {b : Blobs K Bytes}

/-- A directory that is not a key's path can come to be. -/
theorem Shows.mkdir (h : Shows layout fs b) {dir : Path} (hdir : ∀ k, layout.path k ≠ dir) :
    Shows layout { fs with dirs := dir :: fs.dirs } b where
  files := h.files
  dirs k := by
    have hold := h.dirs k
    simp only [Fs.isDir, Bool.or_eq_false_iff, List.contains_cons] at hold ⊢
    exact ⟨hold.1, by simpa using hdir k, hold.2⟩
  numbered := h.numbered
  tmps := h.tmps

theorem Shows.drawn (h : Shows layout fs b) (uuid : Name) :
    Shows layout { fs with drawn := uuid :: fs.drawn } b where
  files := h.files
  dirs := h.dirs
  numbered := h.numbered
  tmps u path hdot htmp hsome := List.mem_cons_of_mem _ (h.tmps u path hdot htmp hsome)

/-- The names of files change, and the blobs with them. -/
theorem Shows.names (h : Shows layout fs b) {names : Blobs Path Ino} {b' : Blobs K Bytes}
    (hfiles : ∀ k, (names.lookup (layout.path k)).map fs.content = b'.lookup k)
    (hold : ∀ path ino, names.lookup path = some ino → fs.names.lookup path = some ino ∨
      (∃ k, path = layout.path k) ∧ ino < fs.next) :
    Shows layout { fs with names := names } b' where
  files := hfiles
  dirs := h.dirs
  numbered path ino hpath := by
    obtain hsame | ⟨_, hlt⟩ := hold path ino hpath
    · exact h.numbered path ino hsame
    · exact hlt
  tmps u path hdot htmp hsome := by
    obtain ⟨ino, hino⟩ := Option.ne_none_iff_exists'.mp hsome
    obtain hsame | ⟨⟨k, rfl⟩, _⟩ := hold path ino hino
    · exact h.tmps u path hdot htmp (by simp [hsame])
    · exact absurd htmp (layout.not_tmp k u hdot)

/-- A file that no key names is written. -/
theorem Shows.content (h : Shows layout fs b) {ino : Ino}
    (hino : ∀ k, fs.names.lookup (layout.path k) ≠ some ino) (bytes : Bytes) :
    Shows layout { fs with content := Function.update fs.content ino bytes } b where
  files k := by
    rw [← h.files k]
    cases hk : fs.names.lookup (layout.path k) with
    | none => rfl
    | some i =>
      have hne : i ≠ ino := fun heq => hino k (heq ▸ hk)
      simp [Function.update_of_ne hne]
  dirs := h.dirs
  numbered := h.numbered
  tmps := h.tmps

/-- A temporary file comes to be. -/
theorem Shows.created (h : Shows layout fs b) {uuid : Name} {tmp : Path} (htmp : IsTmp uuid tmp)
    (hdot : '.' ∉ uuid) (hdrawn : uuid ∈ fs.drawn) :
    Shows layout
      { fs with
        names := fs.names.insert tmp fs.next
        content := Function.update fs.content fs.next []
        next := fs.next + 1 } b where
  files k := by
    rw [← h.files k, AList.lookup_insert_ne (layout.tmp_ne htmp hdot k)]
    cases hk : fs.names.lookup (layout.path k) with
    | none => rfl
    | some i =>
      have hne : i ≠ fs.next := (h.numbered _ i hk).ne
      simp [Function.update_of_ne hne]
  dirs := h.dirs
  numbered path ino hpath := by
    by_cases heq : path = tmp
    · subst heq
      rw [AList.lookup_insert] at hpath
      cases hpath
      exact Nat.lt_succ_self _
    · rw [AList.lookup_insert_ne heq] at hpath
      exact (h.numbered path ino hpath).trans (Nat.lt_succ_self _)
  tmps u path hdot' htmp' hsome := by
    by_cases heq : path = tmp
    · subst heq
      rwa [htmp'.uuid_eq htmp hdot' hdot]
    · rw [AList.lookup_insert_ne heq] at hsome
      exact h.tmps u path hdot' htmp' hsome

/-- The blobs when a key's file gets its name. -/
theorem Shows.insert (h : Shows layout fs b) {names : Blobs Path Ino} {key : K} {ino : Ino}
    {bytes : Bytes} (hbytes : fs.content ino = bytes)
    (hnames : ∀ k, k ≠ key → names.lookup (layout.path k) = fs.names.lookup (layout.path k))
    (k : K) : ((names.insert (layout.path key) ino).lookup (layout.path k)).map fs.content =
      (b.insert key bytes).lookup k := by
  by_cases hk : k = key
  · subst hk
    simp [hbytes]
  · have hne : layout.path k ≠ layout.path key := fun heq => hk (layout.path_injective heq)
    rw [AList.lookup_insert_ne hne, AList.lookup_insert_ne hk, hnames k hk, h.files k]

theorem Spares.of_mkdir (uuid : Option Name) (own : Option Ino) (fs : Fs) (dir : Path) :
    Spares uuid own fs { fs with dirs := dir :: fs.dirs } :=
  ⟨fun _ => id, le_rfl, fun _ _ _ _ _ _ => rfl, fun _ _ _ => rfl, fun _ _ => .inl⟩

theorem Spares.of_draw (uuid : Option Name) (own : Option Ino) (fs : Fs) (new : Name) :
    Spares uuid own fs { fs with drawn := new :: fs.drawn } :=
  ⟨fun _ => List.mem_cons_of_mem _, le_rfl, fun _ _ _ _ _ _ => rfl, fun _ _ _ => rfl,
    fun _ _ => .inl⟩

theorem Spares.of_write (uuid : Option Name) (fs : Fs) (ino : Ino) (bytes : Bytes) :
    Spares uuid (some ino) fs { fs with content := Function.update fs.content ino bytes } := by
  refine ⟨fun _ => id, le_rfl, fun _ _ _ _ _ _ => rfl, fun i _ hne => ?_, fun _ _ => .inl⟩
  exact Function.update_of_ne (fun heq => hne (congrArg some heq)) _ _

theorem Spares.trans {uuid : Option Name} {own : Option Ino} {fs fs' fs'' : Fs}
    (h : Spares uuid own fs fs') (h' : Spares uuid own fs' fs'') : Spares uuid own fs fs'' where
  drawn u hu := h'.drawn u (h.drawn u hu)
  next := h.next.trans h'.next
  tmps u path hu hdot hne htmp := by
    rw [h'.tmps u path (h.drawn u hu) hdot hne htmp, h.tmps u path hu hdot hne htmp]
  content i hlt hne := by
    rw [h'.content i (hlt.trans_le h.next) hne, h.content i hlt hne]
  names path i hpath := by
    obtain hold | hown | hnew := h'.names path i hpath
    · exact h.names path i hold
    · exact .inr (.inl hown)
    · exact .inr (.inr (h.next.trans hnew))

omit [DecidableEq K] in
/-- A key names the file that was written. -/
theorem Spares.of_name (layout : Layout K) (key : K) (uuid : Option Name) (fs : Fs) (ino : Ino) :
    Spares uuid (some ino) fs
      { fs with names := fs.names.insert (layout.path key) ino } where
  drawn _ := id
  next := le_rfl
  tmps u path _ hdot _ htmp := AList.lookup_insert_ne (layout.tmp_ne htmp hdot key).symm
  content _ _ _ := rfl
  names path i hpath := by
    by_cases heq : path = layout.path key
    · subst heq
      rw [AList.lookup_insert] at hpath
      exact .inr (.inl hpath.symm)
    · rw [AList.lookup_insert_ne heq] at hpath
      exact .inl hpath

/-- A name goes that is no other process's temporary one. -/
theorem Spares.of_remove {uuid : Option Name} (own : Option Ino) (fs : Fs) {gone : Path}
    (hgone : ∀ u, '.' ∉ u → some u ≠ uuid → ¬ IsTmp u gone) :
    Spares uuid own fs { fs with names := fs.names.erase gone } where
  drawn _ := id
  next := le_rfl
  tmps u path _ hdot hne htmp := by
    refine AList.lookup_erase_ne ?_
    rintro rfl
    exact hgone u hdot hne htmp
  content _ _ _ := rfl
  names path i hpath := .inl (lookup_of_erase hpath)

theorem Spares.of_remove_tmp {uuid : Name} {tmp : Path} (htmp : IsTmp uuid tmp)
    (hdot : '.' ∉ uuid) (own : Option Ino) (fs : Fs) :
    Spares (some uuid) own fs { fs with names := fs.names.erase tmp } := by
  refine .of_remove own fs fun u hdot' hne htmp' => ?_
  exact hne (congrArg some (htmp'.uuid_eq htmp hdot' hdot))

theorem Spares.of_create {uuid : Name} {tmp : Path} (htmp : IsTmp uuid tmp) (hdot : '.' ∉ uuid)
    (own : Option Ino) (fs : Fs) :
    Spares (some uuid) own fs
      { fs with
        names := fs.names.insert tmp fs.next
        content := Function.update fs.content fs.next []
        next := fs.next + 1 } where
  drawn _ := id
  next := Nat.le_succ _
  tmps u path _ hdot' hne htmp' := by
    have hpath : path ≠ tmp := by
      rintro rfl
      exact hne (congrArg some (htmp'.uuid_eq htmp hdot' hdot))
    exact AList.lookup_insert_ne hpath
  content i hlt _ := Function.update_of_ne hlt.ne _ _
  names path i hpath := by
    by_cases heq : path = tmp
    · subst heq
      rw [AList.lookup_insert] at hpath
      cases hpath
      exact .inr (.inr le_rfl)
    · rw [AList.lookup_insert_ne heq] at hpath
      exact .inl hpath

section Programs

variable {o : PointOp K Bytes} {α : Type}
  {Q : α → Outlook ((points K Bytes).Answer o) → Held → Prop}
  {d : Outlook ((points K Bytes).Answer o)}
  {g : Held}

theorem Frames.same (g : Held) (fs : Fs) : (layer layout).Frames g g fs fs :=
  (Spares.refl _ _ fs).frames rfl rfl fun _ hapart _ => hapart

/-- One call: what it answers, what it leaves behind, and what becomes of the operation. -/
theorem lin_call {c : SysOp} {k : c.Answer → Call α}
    (h : ∀ fs b e, Shows layout fs b → g.Own fs → fresh e c fs →
      ∃ r fs' d' b' g', exec e c fs = (r, fs') ∧ Settles (atomic K Bytes) o d b d' b' ∧
        Shows layout fs' b' ∧ g'.Own fs' ∧ (layer layout).Frames g g' fs fs' ∧
        (layer layout).Lin o Q (k r) d' g') :
    (layer layout).Lin o Q (.call c k) d g := by
  intro fs b e hrel hown hadm
  obtain ⟨r, fs', d', b', g', hexec, hset, hrel', hown', hframe, hk⟩ := h fs b e hrel hown hadm
  change ∃ d' s' g', Settles (atomic K Bytes) o d b d' s' ∧ Shows layout (exec e c fs).2 s' ∧
    g'.Own (exec e c fs).2 ∧ (layer layout).Frames g g' fs (exec e c fs).2 ∧
    (layer layout).Lin o Q (k (exec e c fs).1) d' g'
  rw [hexec]
  exact ⟨d', b', g', hset, hrel', hown', hframe, hk⟩

/-- A call whose answer is all that comes of it. -/
theorem lin_look {c : SysOp} {k : c.Answer → Call α} (hsame : ∀ e fs, (exec e c fs).2 = fs)
    (hk : ∀ r, (layer layout).Lin o Q (k r) d g) : (layer layout).Lin o Q (.call c k) d g :=
  Layer.Lin.look hsame fun _ _ _ _ _ _ => hk _

theorem exec_mkdir (e : Chance) (dir : Path) (fs : Fs) :
    ∃ r, exec e (.mkdir dir) fs = (r, fs) ∨
      exec e (.mkdir dir) fs = (r, { fs with dirs := dir :: fs.dirs }) := by
  cases hfails : e.fails with
  | true => exact ⟨.error .io, .inl (by simp [exec, hfails])⟩
  | false =>
    by_cases hthere : (fs.isDir dir || (fs.names.lookup dir).isSome) = true
    · exact ⟨.error .alreadyExists, .inl (by simp only [exec, hfails, Fs.mkdir, hthere]; rfl)⟩
    · by_cases hparent : fs.isDir dir.tail = true
      · exact ⟨.ok (), .inr (by simp only [exec, hfails, Fs.mkdir, hthere, hparent]; rfl)⟩
      · exact ⟨.error (fs.missing dir),
          .inl (by simp only [exec, hfails, Fs.mkdir, hthere, hparent]; rfl)⟩

theorem lin_mkdir {dir : Path} (hdir : ∀ k, layout.path k ≠ dir)
    {k : Except Errno Unit → Call α} (hk : ∀ r, (layer layout).Lin o Q (k r) d g) :
    (layer layout).Lin o Q (.call (SysOp.mkdir dir) k) d g := by
  refine lin_call fun fs b e hrel hown _ => ?_
  obtain ⟨r, hexec | hexec⟩ := exec_mkdir e dir fs
  · exact ⟨r, fs, d, b, g, hexec, .wait d b, hrel, hown, Frames.same g fs, hk r⟩
  · refine ⟨r, _, d, b, g, hexec, .wait d b, hrel.mkdir hdir, ?_, ?_, hk r⟩
    · have hspares := Spares.of_mkdir none none fs dir
      exact hown.spared hspares (fun u _ h => by cases h) fun i _ h => by cases h
    · exact (Spares.of_mkdir _ _ fs dir).frames rfl rfl fun _ hapart _ => hapart

theorem lin_madeDir (dir : Path) (r : Except Errno Unit) :
    (layer layout).Lin o (fun _ d' g' => d' = d ∧ g' = g) (madeDir dir r) d g := by
  cases r with
  | ok u => exact ⟨rfl, rfl⟩
  | error e => exact lin_look (fun _ _ => rfl) fun _ => ⟨rfl, rfl⟩

/-- To make directories that are no key's path changes nothing else. -/
theorem lin_createDirAll {dir : Path} (hdir : ∀ dir', dir' <:+ dir → ∀ k, layout.path k ≠ dir') :
    (layer layout).Lin o (fun _ d' g' => d' = d ∧ g' = g) (createDirAll dir) d g := by
  induction dir with
  | nil => exact lin_mkdir (hdir _ List.suffix_rfl) fun r => lin_madeDir [] r
  | cons name parent ih =>
    have hmkdir := hdir _ List.suffix_rfl
    have hmade (r : Except Errno Unit) :
        (layer layout).Lin o (fun _ d' g' => d' = d ∧ g' = g) (madeDir (name :: parent) r) d g :=
      lin_madeDir (name :: parent) r
    have hparent := ih fun dir' h => hdir dir' (h.trans (List.suffix_cons name parent))
    refine lin_mkdir hmkdir fun r => ?_
    cases r with
    | ok u => exact hmade (.ok u)
    | error e =>
      cases e with
      | notFound =>
        refine Layer.Lin.attempt (hparent.mono ?_)
        rintro r d' g' ⟨rfl, rfl⟩
        exact ⟨fun _ _ => lin_mkdir hmkdir fun r => hmade r, fun _ _ => ⟨rfl, rfl⟩⟩
      | alreadyExists => exact hmade (.error .alreadyExists)
      | notADirectory => exact hmade (.error .notADirectory)
      | isADirectory => exact hmade (.error .isADirectory)
      | io => exact hmade (.error .io)

/-- The bytes of one write: some of those that are left. -/
theorem exec_write {e : Chance} (hfails : e.fails = false) {fs : Fs} {ino : Ino} {done left : Bytes}
    (hbytes : fs.content ino = done) (hleft : left ≠ []) :
    ∃ n, n ≠ 0 ∧ n ≤ left.length ∧ exec e (.write ino done.length left) fs =
      (.ok n, { fs with content := Function.update fs.content ino (done ++ left.take n) }) := by
  have hpos : 0 < left.length := List.length_pos_iff.mpr hleft
  have hlen : (left.take (max 1 e.gives)).length = min (max 1 e.gives) left.length :=
    List.length_take
  refine ⟨(left.take (max 1 e.gives)).length, by omega, by omega, ?_⟩
  have htake : left.take (left.take (max 1 e.gives)).length = left.take (max 1 e.gives) := by
    rw [List.take_eq_take_iff]
    omega
  have hwrite : fs.write ino done.length (left.take (max 1 e.gives)) =
      { fs with
        content := Function.update fs.content ino (done ++ left.take (max 1 e.gives)) } := by
    have hbeyond (n : Nat) : done.drop (done.length + n) = [] := List.drop_of_length_le (by omega)
    simp only [Fs.write, hbytes, List.take_length, hbeyond, List.append_nil]
  rw [htake]
  simp only [exec, hfails, hwrite]
  rfl

/-- The file that is being written gets the bytes that are left. -/
theorem lin_writeAll {uuid : Name} {tmp : Path} {ino : Ino} (calls : Nat) (done left : Bytes)
    (hcalls : left.length ≤ calls) :
    (layer layout).Lin o (fun r d' g' => d' = d ∧
        (r = .ok () → g' = .wrote uuid tmp ino (done ++ left)))
      (writeAll calls ino done.length left) d (.wrote uuid tmp ino done) := by
  induction calls generalizing done left with
  | zero =>
    obtain rfl : left = [] := List.length_eq_zero_iff.mp (Nat.le_zero.mp hcalls)
    exact ⟨rfl, fun _ => by rw [List.append_nil]⟩
  | succ calls ih =>
    cases left with
    | nil => exact ⟨rfl, fun _ => by rw [List.append_nil]⟩
    | cons byte rest =>
      refine lin_call fun fs b e hrel hown _ => ?_
      cases hfails : e.fails with
      | true =>
        have hexec : exec e (.write ino done.length (byte :: rest)) fs = (.error .io, fs) := by
          simp [exec, hfails]
        exact ⟨_, _, d, b, _, hexec, .wait d b, hrel, hown, Frames.same _ fs, rfl,
          fun h => by cases h⟩
      | false =>
        obtain ⟨hdrawn, hdot, htmp, hlookup, honly, hbytes, hlt⟩ := hown
        obtain ⟨n, hn, hle, hexec⟩ := exec_write hfails hbytes (List.cons_ne_nil byte rest)
        have hnoKey : ∀ k, fs.names.lookup (layout.path k) ≠ some ino := fun k hk =>
          layout.tmp_ne htmp hdot k (honly _ hk)
        refine ⟨_, _, d, b, .wrote uuid tmp ino (done ++ (byte :: rest).take n), hexec, .wait d b,
          hrel.content hnoKey _, ?_, ?_, ?_⟩
        · exact ⟨hdrawn, hdot, htmp, hlookup, honly, Function.update_self .., hlt⟩
        · exact (Spares.of_write _ fs ino _).frames rfl rfl fun _ hapart _ => hapart
        · have hrest : ((byte :: rest).drop n).length ≤ calls := by
            rw [List.length_drop]
            omega
          have hnext := ih (done ++ (byte :: rest).take n) _ hrest
          rw [List.append_assoc, List.take_append_drop, List.length_append, List.length_take,
            Nat.min_eq_left hle] at hnext
          change (layer layout).Lin o _ (if n = 0 then _ else _) d _
          rw [if_neg hn]
          exact hnext

/-- A file of a new id comes to be where nobody has one. -/
theorem exec_createFile {e : Chance} {fs : Fs} {path : Path} (h : fs.names.lookup path = none) :
    (∃ err, exec e (.createFile path) fs = (.error err, fs)) ∨
      exec e (.createFile path) fs = (.ok fs.next, { fs with
        names := fs.names.insert path fs.next
        content := Function.update fs.content fs.next []
        next := fs.next + 1 }) := by
  cases hfails : e.fails with
  | true => exact .inl ⟨.io, by simp only [exec, hfails]; rfl⟩
  | false =>
    have hexec : exec e (.createFile path) fs = fs.createFile path := by
      simp only [exec, hfails]
      rfl
    rw [hexec, Fs.createFile, h]
    by_cases hdir : fs.isDir path = true
    · exact .inl ⟨.isADirectory, if_pos hdir⟩
    · rw [if_neg hdir]
      by_cases hparent : fs.isDir path.tail = true
      · exact .inr (if_pos hparent)
      · exact .inl ⟨fs.missing path, if_neg hparent⟩

theorem lin_writeNew {uuid : Name} {tmp : Path} (htmp : IsTmp uuid tmp) (bytes : Bytes) :
    (layer layout).Lin o (fun r d' g' => d' = d ∧
        (r = .ok () → ∃ ino, g' = .wrote uuid tmp ino bytes))
      (writeNew tmp bytes) d (.drew uuid) := by
  refine Layer.Lin.bind (lin_call fun fs b e hrel hown _ => ?_)
  obtain ⟨hdrawn, hdot, hnone⟩ := hown
  obtain ⟨err, hexec⟩ | hexec := exec_createFile (e := e) (hnone _ htmp)
  · exact ⟨_, _, d, b, .drew uuid, hexec, .wait _ b, hrel, ⟨hdrawn, hdot, hnone⟩,
      Frames.same _ fs, rfl, fun h => by cases h⟩
  · refine ⟨_, _, d, b, .wrote uuid tmp fs.next [], hexec, .wait _ b,
      hrel.created htmp hdot hdrawn, ?_, ?_, ?_⟩
    · refine ⟨hdrawn, hdot, htmp, AList.lookup_insert _, fun path hpath => ?_,
        Function.update_self .., Nat.lt_succ_self _⟩
      by_contra hne
      rw [AList.lookup_insert_ne hne] at hpath
      exact absurd (hrel.numbered path _ hpath) (Nat.lt_irrefl _)
    · -- the file is new, so nobody counts on it yet
      have hunused (h : Held) (hown : h.Own fs) {i : Ino} (hi : h.uses = some i) :
          (fs.next : Ino) ≠ i := (hown.lt_next hi).ne'
      refine (Spares.of_create htmp hdot none fs).frames rfl rfl fun h hapart hown => ?_
      refine ⟨hapart.1, ?_, ?_⟩
      · intro i hi heq
        exact hunused h hown (h.uses_of_writes hi) (Option.some.inj heq)
      · intro i hi heq
        exact hunused h hown heq (Option.some.inj hi)
    · refine (lin_writeAll bytes.length [] bytes le_rfl).mono ?_
      rintro r d' g' ⟨rfl, hg'⟩
      exact ⟨rfl, fun hr => ⟨fs.next, hg' hr⟩⟩

/-- What comes before the bytes get their name leaves them in a temporary file. -/
theorem lin_writeTmp (key : K) (bytes : Bytes) :
    (layer layout).Lin o (fun r d' g' => d' = d ∧
        ∀ tmp, r = .ok tmp → ∃ uuid ino, g' = .wrote uuid tmp ino bytes)
      (writeTmp (layout.path key) bytes) d .idle := by
  have hdir : ∀ dir', dir' <:+ (layout.path key).tail → ∀ k, layout.path k ≠ dir' :=
    fun dir' h k => layout.path_ne_of_suffix h
  refine Layer.Lin.attempt ((lin_createDirAll hdir).mono ?_)
  rintro r d g ⟨rfl, rfl⟩
  refine ⟨fun _ _ => ?_, fun e _ => ⟨rfl, fun tmp h => by cases h⟩⟩
  refine lin_call fun fs b e hrel _ hfresh => ?_
  obtain ⟨hnew, hdot⟩ := hfresh
  have hunnamed : ∀ path, IsTmp e.uuid path → fs.names.lookup path = none := by
    intro path htmp
    by_contra hsome
    exact hnew (hrel.tmps e.uuid path hdot htmp hsome)
  refine ⟨e.uuid, _, d, b, .drew e.uuid, rfl, .wait _ b, hrel.drawn e.uuid, ?_, ?_, ?_⟩
  · exact ⟨List.mem_cons_self, hdot, hunnamed⟩
  · refine (Spares.of_draw _ _ fs e.uuid).frames rfl rfl fun h hapart hown => ⟨?_, hapart.2⟩
    rintro u hu heq
    cases heq
    exact hnew (hown.drawn hu).1
  · have htmp : IsTmp e.uuid (tmpFor (layout.path key) e.uuid) :=
      ⟨_, layout.path_ne_nil key, rfl⟩
    refine Layer.Lin.attempt ((lin_writeNew htmp bytes).mono ?_)
    rintro r d g ⟨rfl, hr⟩
    refine ⟨fun u hu => ⟨rfl, fun tmp h => ?_⟩, fun err _ => ⟨rfl, fun tmp h => by cases h⟩⟩
    cases h
    obtain ⟨ino, rfl⟩ := hr hu
    exact ⟨e.uuid, ino, rfl⟩

end Programs

theorem writeTmp_ne_ret (path : Path) (bytes : Bytes) (r : Except Errno Path) :
    writeTmp path bytes ≠ .ret r := by
  refine Prog.bind_ne_ret (fun u => ?_) r
  cases path.tail with
  | nil => exact fun h => by cases h
  | cons name parent => exact fun h => by cases h

/-- An error closes whatever has not settled. -/
theorem closes_unavailable (o : PointOp K Bytes) :
    (Outlook.pending : Outlook ((points K Bytes).Answer o)).Closes (atomic K Bytes) o
      (.error .unavailable) := fun _ => ⟨false, rfl⟩

/-- The temporary file gets the name of the key. -/
theorem exec_rename {e : Chance} {fs : Fs} {b : Blobs K Bytes} (hrel : Shows layout fs b) {key : K}
    {tmp : Path} {ino : Ino} (hlookup : fs.names.lookup tmp = some ino)
    (hne : fs.names.lookup (layout.path key) ≠ some ino) :
    (∃ err, exec e (.rename tmp (layout.path key)) fs = (.error err, fs)) ∨
      exec e (.rename tmp (layout.path key)) fs = (.ok (), { fs with
        names := (fs.names.erase tmp).insert (layout.path key) ino }) := by
  cases hfails : e.fails with
  | true => exact .inl ⟨.io, by simp only [exec, hfails]; rfl⟩
  | false =>
    have hexec : exec e (.rename tmp (layout.path key)) fs = fs.rename tmp (layout.path key) := by
      simp only [exec, hfails]
      rfl
    have hdir := hrel.dirs key
    rw [hexec, Fs.rename, hlookup]
    simp only [hdir, if_neg hne]
    by_cases hparent : fs.isDir (layout.path key).tail = true
    · exact .inr (if_pos hparent)
    · exact .inl ⟨fs.missing (layout.path key), if_neg hparent⟩

theorem put_implements (key : K) (bytes : Bytes) :
    (layer layout).Implements (.put key bytes) (putAt (layout.path key) bytes) := by
  refine ⟨Prog.bind_ne_ret (Prog.bind_ne_ret (writeTmp_ne_ret _ _)), ?_⟩
  refine Layer.Lin.bind (Layer.Lin.attempt ((lin_writeTmp key bytes).mono ?_))
  rintro r d g ⟨rfl, hr⟩
  refine ⟨fun tmp htmp => ?_, fun e _ => closes_unavailable _⟩
  obtain ⟨uuid, ino, rfl⟩ := hr tmp htmp
  refine lin_call fun fs b e hrel hown _ => ?_
  obtain ⟨hdrawn, hdot, hisTmp, hlookup, honly, hbytes, hlt⟩ := hown
  have hkeyTmp : ∀ k, layout.path k ≠ tmp := layout.tmp_ne hisTmp hdot
  have hne : fs.names.lookup (layout.path key) ≠ some ino := fun h => hkeyTmp key (honly _ h)
  obtain ⟨err, hexec⟩ | hexec := exec_rename (e := e) hrel hlookup hne
  · exact ⟨_, _, .pending, b, .wrote uuid tmp ino bytes, hexec, .wait _ b, hrel,
      ⟨hdrawn, hdot, hisTmp, hlookup, honly, hbytes, hlt⟩, Frames.same _ fs, closes_unavailable _⟩
  · refine ⟨_, _, _, _, .idle, hexec, .land (d := .pending) trivial true b, ?_, trivial, ?_, rfl⟩
    · refine hrel.names (hrel.insert hbytes fun k _ => ?_) fun path i hi => ?_
      · exact AList.lookup_erase_ne (hkeyTmp k)
      · by_cases heq : path = layout.path key
        · subst heq
          rw [AList.lookup_insert] at hi
          cases hi
          exact .inr ⟨⟨key, rfl⟩, hlt⟩
        · rw [AList.lookup_insert_ne heq] at hi
          exact .inl (lookup_of_erase hi)
    · have hgone := Spares.of_remove_tmp hisTmp hdot (some ino) fs
      exact (hgone.trans (.of_name layout key _ _ ino)).frames rfl rfl fun h _ _ =>
        (layer layout).apart_idle h

theorem exec_removeFile (e : Chance) (fs : Fs) (path : Path) :
    (∃ err, (err = .notFound → fs.isDir path = false → fs.names.lookup path = none) ∧
        exec e (.removeFile path) fs = (.error err, fs)) ∨
      exec e (.removeFile path) fs = (.ok (), { fs with names := fs.names.erase path }) := by
  cases hfails : e.fails with
  | true => exact .inl ⟨.io, fun h => (by cases h), by simp only [exec, hfails]; rfl⟩
  | false =>
    have hexec : exec e (.removeFile path) fs = fs.removeFile path := by
      simp only [exec, hfails]
      rfl
    rw [hexec, Fs.removeFile]
    cases hdir : fs.isDir path with
    | true => exact .inl ⟨.isADirectory, fun h => (by cases h), rfl⟩
    | false =>
      cases hlookup : fs.names.lookup path with
      | some ino => exact .inr rfl
      | none => exact .inl ⟨_, fun _ _ => rfl, rfl⟩

theorem delete_implements (key : K) :
    (layer layout).Implements (.delete key) (deleteAt (layout.path key)) := by
  refine ⟨fun a h => (by cases h), lin_call fun fs b e hrel hown _ => ?_⟩
  obtain ⟨err, hnone, hexec⟩ | hexec := exec_removeFile e fs (layout.path key)
  · by_cases herr : err = .notFound
    · subst herr
      refine ⟨_, _, _, _, .idle, hexec, .land (d := .pending) trivial true b, ?_, trivial,
        Frames.same _ fs, rfl⟩
      refine ⟨fun k => ?_, hrel.dirs, hrel.numbered, hrel.tmps⟩
      change _ = (b.erase key).lookup k
      by_cases hk : k = key
      · subst hk
        rw [AList.lookup_erase, hnone rfl (hrel.dirs k)]
        rfl
      · rw [AList.lookup_erase_ne hk, hrel.files k]
    · have hremoved : removed (.error err) = .error .unavailable := by
        cases err with
        | notFound => exact absurd rfl herr
        | alreadyExists => rfl
        | notADirectory => rfl
        | isADirectory => rfl
        | io => rfl
      refine ⟨_, _, .pending, b, .idle, hexec, .wait _ b, hrel, trivial, Frames.same _ fs, ?_⟩
      change Outlook.Closes (atomic K Bytes) (.delete key) (removed (.error err)) .pending
      rw [hremoved]
      exact closes_unavailable _
  · refine ⟨_, _, _, _, .idle, hexec, .land (d := .pending) trivial true b, ?_, trivial, ?_, rfl⟩
    · refine hrel.names (fun k => ?_) fun path i hi => .inl (lookup_of_erase hi)
      change _ = (b.erase key).lookup k
      by_cases hk : k = key
      · subst hk
        rw [AList.lookup_erase, AList.lookup_erase]
        rfl
      · rw [AList.lookup_erase_ne hk, AList.lookup_erase_ne fun h => hk (layout.path_injective h),
          hrel.files k]
    · refine (Spares.of_remove none fs fun u hdot _ htmp => ?_).frames rfl rfl
        fun h hapart _ => hapart
      exact layout.not_tmp key u hdot htmp

theorem exec_hardLink {e : Chance} {fs : Fs} {b : Blobs K Bytes} (hrel : Shows layout fs b)
    (key : K) {tmp : Path} {ino : Ino} (hlookup : fs.names.lookup tmp = some ino) :
    (∃ err, err ≠ .alreadyExists ∧
        exec e (.hardLink tmp (layout.path key)) fs = (.error err, fs)) ∨
      ((fs.names.lookup (layout.path key)).isSome = true ∧
        exec e (.hardLink tmp (layout.path key)) fs = (.error .alreadyExists, fs)) ∨
      (fs.names.lookup (layout.path key) = none ∧
        exec e (.hardLink tmp (layout.path key)) fs =
          (.ok (), { fs with names := fs.names.insert (layout.path key) ino })) := by
  cases hfails : e.fails with
  | true => exact .inl ⟨.io, by simp, by simp only [exec, hfails]; rfl⟩
  | false =>
    have hexec : exec e (.hardLink tmp (layout.path key)) fs =
        fs.hardLink tmp (layout.path key) := by
      simp only [exec, hfails]
      rfl
    rw [hexec, Fs.hardLink, hlookup]
    simp only [hrel.dirs key, Bool.false_or]
    cases hkey : fs.names.lookup (layout.path key) with
    | some i => exact .inr (.inl ⟨rfl, rfl⟩)
    | none =>
      by_cases hparent : fs.isDir (layout.path key).tail = true
      · exact .inr (.inr ⟨rfl, if_pos hparent⟩)
      · refine .inl ⟨fs.missing (layout.path key), ?_, if_neg hparent⟩
        unfold Fs.missing
        split <;> simp

/-- What is left of a `create` whose fate the link has decided: to remove the temporary file. -/
theorem lin_removeTmp {key : K} {bytes : Bytes} {uuid : Name} {tmp : Path}
    {result : Except Errno Unit}
    {d : Outlook ((points K Bytes).Answer (.create key bytes))} {g : Held} (htmp : IsTmp uuid tmp)
    (hg : g.uuid = some uuid) (hd : d.Closes (atomic K Bytes) (.create key bytes) (linked result)) :
    (layer layout).Lin (.create key bytes)
      (fun a d _ => d.Closes (atomic K Bytes) (.create key bytes) a)
      ((removeFile tmp).bind fun _ => .ret (linked result)) d g := by
  refine lin_call fun fs b e hrel hown _ => ?_
  have hdot := (hown.drawn hg).2
  obtain ⟨err, _, hexec⟩ | hexec := exec_removeFile e fs tmp
  · exact ⟨_, fs, d, b, .idle, hexec, .wait d b, hrel, trivial,
      (Spares.refl _ _ fs).frames rfl rfl fun h _ _ => (layer layout).apart_idle h, hd⟩
  · refine ⟨_, _, d, b, .idle, hexec, .wait d b, ?_, trivial, ?_, hd⟩
    · refine hrel.names (fun k => ?_) fun path i hi => .inl (lookup_of_erase hi)
      rw [AList.lookup_erase_ne (layout.tmp_ne htmp hdot k), hrel.files k]
    · exact (Spares.of_remove_tmp htmp hdot _ fs).frames hg rfl fun h _ _ =>
        (layer layout).apart_idle h

theorem create_implements (key : K) (bytes : Bytes) :
    (layer layout).Implements (.create key bytes) (createAt (layout.path key) bytes) := by
  refine ⟨Prog.bind_ne_ret (writeTmp_ne_ret _ _), ?_⟩
  refine Layer.Lin.bind ((lin_writeTmp key bytes).mono ?_)
  rintro r d g ⟨rfl, hr⟩
  cases r with
  | error err => exact closes_unavailable _
  | ok tmp =>
    obtain ⟨uuid, ino, rfl⟩ := hr tmp rfl
    refine lin_call fun fs b e hrel hown _ => ?_
    obtain ⟨hdrawn, hdot, hisTmp, hlookup, honly, hbytes, hlt⟩ := id hown
    obtain ⟨err, hne, hexec⟩ | ⟨hsome, hexec⟩ | ⟨hnone, hexec⟩ :=
      exec_hardLink (e := e) hrel key hlookup
    · refine ⟨_, _, .pending, b, .wrote uuid tmp ino bytes, hexec, .wait _ b, hrel, hown,
        Frames.same _ fs, lin_removeTmp hisTmp rfl ?_⟩
      cases err with
      | alreadyExists => exact absurd rfl hne
      | notFound => exact closes_unavailable _
      | notADirectory => exact closes_unavailable _
      | isADirectory => exact closes_unavailable _
      | io => exact closes_unavailable _
    · have hthere : (b.lookup key).isNone = false := by
        rw [← hrel.files key, Option.isNone_map, Option.isNone_eq_false_iff]
        exact hsome
      refine ⟨_, _, _, _, .wrote uuid tmp ino bytes, hexec, .land (d := .pending) trivial true b,
        ?_, hown, Frames.same _ fs, lin_removeTmp hisTmp rfl ?_⟩
      · change Shows layout fs (if (b.lookup key).isNone = true then _ else b)
        rwa [hthere]
      · change Except.ok (b.lookup key).isNone = _
        rw [hthere]
        rfl
    · have habsent : (b.lookup key).isNone = true := by
        rw [← hrel.files key, hnone]
        rfl
      refine ⟨_, _, _, _, .linked uuid, hexec, .land (d := .pending) trivial true b, ?_,
        ⟨hdrawn, hdot⟩, ?_, lin_removeTmp hisTmp rfl ?_⟩
      · change Shows layout _ (if (b.lookup key).isNone = true then b.insert key bytes else b)
        rw [if_pos habsent]
        refine hrel.names (hrel.insert hbytes fun _ _ => rfl) fun path i hi => ?_
        by_cases heq : path = layout.path key
        · subst heq
          rw [AList.lookup_insert] at hi
          cases hi
          exact .inr ⟨⟨key, rfl⟩, hlt⟩
        · rw [AList.lookup_insert_ne heq] at hi
          exact .inl hi
      · refine (Spares.of_name layout key (some uuid) fs ino).frames rfl rfl fun h hapart _ => ?_
        exact ⟨hapart.1, fun i _ hi => (by cases hi), fun i hi => (by cases hi)⟩
      · change Except.ok (b.lookup key).isNone = _
        rw [habsent]
        rfl

/-- What a read gives of a file that is open: some of what is left, and nothing only at its end. -/
theorem exec_read {e : Chance} (hfails : e.fails = false) {fs : Fs} {ino : Ino} {room : Nat}
    (hroom : 0 < room) {got left : Bytes} (hbytes : fs.content ino = got ++ left) :
    ∃ n, (n = 0 → left = []) ∧ n ≤ left.length ∧
      exec e (.read ino got.length room) fs = (.ok (left.take n), fs) := by
  have hlen : (left.take (min room (max 1 e.gives))).length =
      min (min room (max 1 e.gives)) left.length := List.length_take
  refine ⟨(left.take (min room (max 1 e.gives))).length, fun h => ?_, by omega, ?_⟩
  · exact List.length_eq_zero_iff.mp (by omega)
  · have htake : left.take (left.take (min room (max 1 e.gives))).length =
        left.take (min room (max 1 e.gives)) := by
      rw [List.take_eq_take_iff]
      omega
    rw [htake]
    simp only [exec, hfails, hbytes, List.drop_left]
    rfl

/-- The file that is being read is the blob as it was when the file was opened. -/
theorem lin_readToEnd {key : K} {room : Nat} (hroom : 0 < room) {ino : Ino} {bytes : Bytes}
    (calls : Nat) (got left : Bytes) (hbytes : bytes = got ++ left) :
    (layer layout).Lin (.get key) (fun r d _ =>
        d.Closes (atomic K Bytes) (.get key) ((answer r).map some))
      (readToEnd room calls ino got) (.offered (.ok (some bytes))) (.reads ino bytes) := by
  have hrefuses :
      (Outlook.offered (.ok (some bytes)) : Outlook ((points K Bytes).Answer (.get key))).Closes
      (atomic K Bytes) (.get key) (.error .unavailable) := fun _ => ⟨false, rfl⟩
  induction calls generalizing got left with
  | zero => exact hrefuses
  | succ calls ih =>
    refine lin_call fun fs b e hrel hown _ => ?_
    cases hfails : e.fails with
    | true =>
      have hexec : exec e (.read ino got.length room) fs = (.error .io, fs) := by
        simp only [exec, hfails]
        rfl
      exact ⟨_, _, _, b, .reads ino bytes, hexec, .wait _ b, hrel, hown, Frames.same _ fs, hrefuses⟩
    | false =>
      obtain ⟨n, hzero, hle, hexec⟩ := exec_read hfails hroom (hown.1.trans hbytes)
      by_cases hn : n = 0
      · have hleft := hzero hn
        subst hleft
        rw [List.append_nil] at hbytes
        refine ⟨_, _, _, b, .reads ino bytes, hexec, .accept _ b, hrel, hown, Frames.same _ fs, ?_⟩
        subst hbytes
        rw [List.take_nil]
        exact rfl
      · have hne : (left.take n).isEmpty = false := by
          have hlen : (left.take n).length = n := by
            rw [List.length_take]
            omega
          cases htake : left.take n with
          | nil => exact absurd (by simpa [htake] using hlen.symm) hn
          | cons byte rest => rfl
        refine ⟨_, _, _, b, .reads ino bytes, hexec, .wait _ b, hrel, hown, Frames.same _ fs, ?_⟩
        have hnext := ih (got ++ left.take n) (left.drop n) (by simpa using hbytes)
        change (layer layout).Lin _ _
          (if (left.take n).isEmpty = true then _ else readToEnd room calls ino _) _ _
        rw [hne]
        exact hnext

theorem exec_openFile {e : Chance} {fs : Fs} {b : Blobs K Bytes} (hrel : Shows layout fs b)
    (key : K) :
    (∃ err, err ≠ .notFound ∧ exec e (.openFile (layout.path key)) fs = (.error err, fs)) ∨
      (fs.names.lookup (layout.path key) = none ∧
        exec e (.openFile (layout.path key)) fs = (.error .notFound, fs)) ∨
      ∃ ino, fs.names.lookup (layout.path key) = some ino ∧
        exec e (.openFile (layout.path key)) fs = (.ok ino, fs) := by
  cases hfails : e.fails with
  | true => exact .inl ⟨.io, by simp, by simp only [exec, hfails]; rfl⟩
  | false =>
    have hexec : exec e (.openFile (layout.path key)) fs =
        (fs.openFile (layout.path key), fs) := by
      simp only [exec, hfails]
      rfl
    rw [hexec, Fs.openFile, hrel.dirs key]
    cases hlookup : fs.names.lookup (layout.path key) with
    | some ino => exact .inr (.inr ⟨ino, rfl, rfl⟩)
    | none =>
      by_cases hmissing : fs.missing (layout.path key) = .notFound
      · exact .inr (.inl ⟨rfl, by rw [← hmissing]; rfl⟩)
      · exact .inl ⟨_, hmissing, rfl⟩

theorem get_implements (reader : Reader) (key : K) :
    (layer layout).Implements (.get key) (getAt reader (layout.path key)) := by
  refine ⟨fun a h => (by cases h), lin_call fun fs b e hrel _ _ => ?_⟩
  obtain ⟨err, hne, hexec⟩ | ⟨hnone, hexec⟩ | ⟨ino, hsome, hexec⟩ :=
    exec_openFile (e := e) hrel key
  · refine ⟨_, _, .pending, b, .idle, hexec, .wait _ b, hrel, trivial, Frames.same _ fs, ?_⟩
    cases err with
    | notFound => exact absurd rfl hne
    | alreadyExists => exact closes_unavailable _
    | notADirectory => exact closes_unavailable _
    | isADirectory => exact closes_unavailable _
    | io => exact closes_unavailable _
  · refine ⟨_, _, _, _, .idle, hexec, .land (d := .pending) trivial true b, hrel, trivial,
      Frames.same _ fs, ?_⟩
    change Except.ok (b.lookup key) = _
    rw [← hrel.files key, hnone]
    rfl
  · have hlookup : b.lookup key = some (fs.content ino) := by
      rw [← hrel.files key, hsome]
      rfl
    have hread : (atomic K Bytes).exec true (.get key) b = (.ok (some (fs.content ino)), b) := by
      rw [← hlookup]
      rfl
    refine ⟨_, _, _, b, .reads ino (fs.content ino), hexec, .offer true hread, hrel,
      ⟨rfl, hrel.numbered _ ino hsome⟩, ?_, ?_⟩
    · refine (Spares.refl none none fs).frames rfl rfl fun h hapart hown => ?_
      refine ⟨fun u _ hu => (by cases hu), fun i hi heq => ?_, fun i hi => (by cases hi)⟩
      -- a file that is being written has no name but a temporary one
      cases heq
      cases h with
      | wrote u tmp i bytes =>
        cases hi
        exact layout.tmp_ne hown.2.2.1 hown.2.1 key (hown.2.2.2.2.1 _ hsome)
      | idle => cases hi
      | drew u => cases hi
      | linked u => cases hi
      | reads i bytes => cases hi
    · have hread : (layer layout).Lin (.get key)
          (fun r d _ => d.Closes (atomic K Bytes) (.get key) ((answer r).map some))
          (readToEnd reader.room reader.calls ino []) (.offered (.ok (some (fs.content ino))))
          (.reads ino (fs.content ino)) :=
        lin_readToEnd reader.room_pos reader.calls [] (fs.content ino) rfl
      exact Layer.Lin.bind (m := readToEnd _ _ ino []) hread

theorem carryOut_implements (reader : Reader) (o : PointOp K Bytes) :
    (layer layout).Implements o (carryOut layout reader o) := by
  cases o with
  | get key =>
    simp only [carryOut, get, keyed, layout.pathFor_text]
    exact get_implements reader key
  | put key bytes =>
    simp only [carryOut, put, keyed, layout.pathFor_text]
    exact put_implements key bytes
  | delete key =>
    simp only [carryOut, delete, keyed, layout.pathFor_text]
    exact delete_implements key
  | create key bytes =>
    simp only [carryOut, create, keyed, layout.pathFor_text]
    exact create_implements key bytes

section Runs

variable {ι α : Type} [DecidableEq ι]

/-- Clients of the store, and those of the store that is meant. -/
def clients (layout : Layout K) (reader : Reader) (fs : Fs) (p : ι → Prog (points K Bytes) α) :
    Config sys Fs ι α := ⟨fs, fun i => .start ((p i).expand (carryOut layout reader))⟩

def meant (b : Blobs K Bytes) (p : ι → Prog (points K Bytes) α) :
    Config (points K Bytes) (Blobs K Bytes) ι α :=
  ⟨b, fun i => .start (p i)⟩

/-- No id is drawn twice. -/
def Fresh (c : Config sys Fs ι α) (i : ι) (e : Chance) : Prop :=
  match (c.procs i).prog with
  | .ret _ => True
  | .call o _ => fresh e o c.shared

/-- Whatever clients of the store in files do at the same time, and whichever calls to the system
fail: the files are the blobs of a store whose operations take effect at once, each at one of its
own calls, or fail and have not happened, and every client gets the same answers from both. -/
theorem files_look_atomic (layout : Layout K) (reader : Reader) {fs : Fs} {b : Blobs K Bytes}
    (hshows : Shows layout fs b) (p : ι → Prog (points K Bytes) α) {moves : List (ι × Chance)}
    (hfresh : (clients layout reader fs p).Guarded system Fresh moves) :
    ∃ x, Shadows (atomic K Bytes) (meant b p) (moves.map Prod.fst) x ∧
      Shows layout ((clients layout reader fs p).run system moves).shared x.shared ∧
      ∀ i a, (((clients layout reader fs p).run system moves).procs i).prog = .ret a →
        (x.procs i).prog = .ret a := by
  have hall (q : Prog (points K Bytes) α) : q.Only fun _ => True := by
    induction q with
    | ret a => trivial
    | call o k ih => exact ⟨trivial, ih⟩
  have hadmitted : (clients layout reader fs p).Guarded system (layer layout).Admitted moves := by
    refine hfresh.mono fun c i e hc o k hcall => ?_
    rw [Fresh, hcall] at hc
    exact hc
  exact Layer.linearizable (P := fun _ => True) (fun o _ => carryOut_implements reader o)
    (fun i => hall (p i)) hshows hadmitted

end Runs

section Racing

open KeyTexts (PlainKey logLayout)

theorem logLayout_shows : Shows logLayout {} (∅ : Blobs PlainKey Bytes) where
  files _ := rfl
  dirs k := by
    have hne := logLayout.path_ne_nil k
    simpa [Fs.isDir] using hne
  numbered path ino h := by cases h
  tmps uuid path _ _ h := absurd rfl h

def outcome : PlainKey := .outcome KeyTexts.partA

/-- One would commit the transaction, the other abort it. -/
def deciders : Bool → Prog (points PlainKey Bytes) (Except Error Bool)
  | true => .call (PointOp.create outcome [1]) .ret
  | false => .call (PointOp.create outcome [0]) .ret

/-- Both have written their temporary files before either has the name. -/
def deciding : List (Bool × Chance) :=
  [(true, {}), (false, {}), (false, {}), (true, { uuid := ['1'] }), (false, { uuid := ['2'] }),
    (true, {}), (false, {}), (true, {}), (false, {}), (true, {}), (true, {}), (false, {}),
    (false, {})]

theorem files_look_atomic_deciding :
    ∃ x, Shadows (atomic PlainKey Bytes) (meant ∅ deciders) (deciding.map Prod.fst) x ∧
      Shows logLayout ((clients logLayout ⟨1, 9, Nat.one_pos⟩ {} deciders).run system
        deciding).shared x.shared ∧
      ∀ i a, (((clients logLayout ⟨1, 9, Nat.one_pos⟩ {} deciders).run system deciding).procs
        i).prog = .ret a → (x.procs i).prog = .ret a := by
  refine files_look_atomic logLayout ⟨1, 9, Nat.one_pos⟩ logLayout_shows deciders ?_
  have hfirst : fresh { uuid := ['1'] } .newUuid {} := ⟨by decide, by decide⟩
  have hsecond : fresh { uuid := ['2'] } .newUuid { drawn := [['1']] } := ⟨by decide, by decide⟩
  exact ⟨trivial, trivial, trivial, hfirst, hsecond, trivial, trivial, trivial, trivial, trivial,
    trivial, trivial, trivial, trivial⟩

example : (((clients logLayout ⟨1, 9, Nat.one_pos⟩ {} deciders).run system deciding).procs
      true).prog = .ret (.ok true) ∧
    (((clients logLayout ⟨1, 9, Nat.one_pos⟩ {} deciders).run system deciding).procs
      false).prog = .ret (.ok false) := ⟨rfl, rfl⟩

end Racing

end Fafo.FsStore
