import Fafo.FsStore
import Fafo.Library.Lists
import Fafo.Library.Watching

/-! What a walk of the directories finds while others change them. -/
namespace Fafo.FsStore

open Interleave
open Listing (Name)

/-- No name of the path is changed on the way to its text, or read as two. -/
def Clean (path : Path) : Prop := ∀ name ∈ path, '/' ∉ name ∧ '\\' ∉ name

theorem keyOf_clean {path : Path} (h : Clean path) :
    keyOf path = List.intercalate ['/'] path.reverse := by
  unfold keyOf
  refine (List.map_congr_left fun c hc => if_neg ?_).trans (List.map_id _)
  rintro rfl
  obtain hslash | ⟨part, hpart, hin⟩ := mem_intercalate hc
  · exact absurd hslash (by decide)
  · exact (h part (List.mem_reverse.mp hpart)).2 hin

theorem splitOn_keyOf {path : Path} (h : Clean path) (hne : path ≠ []) :
    (keyOf path).splitOn '/' = path.reverse := by
  rw [keyOf_clean h]
  refine List.splitOn_intercalate '/' (fun part hpart => ?_) (List.reverse_ne_nil_iff.mpr hne)
  exact (h part (List.mem_reverse.mp hpart)).1

/-- A prefix has nothing before its last slash, or what it has comes first. -/
theorem dirOf_spec (pre : Name) : dirOf pre = [] ∨ ∃ rest, pre = dirOf pre ++ '/' :: rest := by
  have hsplit : pre.reverse.takeWhile (· ≠ '/') ++ pre.reverse.dropWhile (· ≠ '/') =
      pre.reverse := List.takeWhile_append_dropWhile
  unfold dirOf
  cases hdrop : pre.reverse.dropWhile (· ≠ '/') with
  | nil => exact .inl rfl
  | cons c before =>
    have hc : c = '/' := by
      have hhead := List.head?_dropWhile_not (fun c : Char => decide (c ≠ '/')) pre.reverse
      rw [hdrop] at hhead
      simpa using hhead
    rw [hdrop, hc] at hsplit
    generalize pre.reverse.takeWhile (· ≠ '/') = after at hsplit
    refine .inr ⟨after.reverse, ?_⟩
    rw [← List.reverse_inj, ← hsplit]
    simp

/-- The directory that a prefix implies is on the way to every path whose text it begins. -/
theorem baseDir_suffix {pre : Name} {path : Path} (hclean : Clean path) (hne : path ≠ [])
    (h : pre <+: keyOf path) : baseDir pre <:+ path ∧ baseDir pre ≠ path := by
  unfold baseDir
  split
  · exact ⟨List.nil_suffix, hne.symm⟩
  · obtain hnil | ⟨rest, hpre⟩ := dirOf_spec pre
    · simp_all
    · obtain ⟨more, hmore⟩ := h
      have htext : keyOf path = dirOf pre ++ '/' :: (rest ++ more) := by
        rw [← hmore]
        conv_lhs => rw [hpre]
        simp
      have hparts := splitOn_keyOf hclean hne
      rw [htext, List.splitOn_append_cons_self, ← List.reverse_inj, List.reverse_append,
        List.reverse_reverse] at hparts
      have hbelow : ((rest ++ more).splitOn '/').reverse ≠ [] := by simp
      refine ⟨⟨_, hparts⟩, fun heq => hbelow ?_⟩
      rw [← heq] at hparts
      exact List.append_left_eq_self.mp hparts

/-- The walk can tell what is a directory. -/
def told (e : Chance) : SysOp → Fs → Prop
  | .isDir _, _ => e.fails = false
  | _, _ => True

/-- Directories stay. -/
def KeepsDirs (fs fs' : Fs) : Prop := fs.dirs ⊆ fs'.dirs

instance : Std.Refl KeepsDirs := ⟨fun _ => List.Subset.refl _⟩

instance : IsTrans Fs KeepsDirs := ⟨fun _ _ _ => List.Subset.trans⟩

theorem exec_keepsDirs (e : Chance) (o : SysOp) (fs : Fs) : KeepsDirs fs (exec e o fs).2 := by
  have hfails {A : Type} {r r' : A × Fs} (hr : KeepsDirs fs r.2) (hr' : KeepsDirs fs r'.2) :
      KeepsDirs fs (if e.fails = true then r else r').2 := by
    split
    · exact hr
    · exact hr'
  have hrefl : KeepsDirs fs fs := List.Subset.refl _
  cases o with
  | mkdir dir =>
    refine hfails hrefl ?_
    unfold Fs.mkdir
    split_ifs
    · exact hrefl
    · exact List.subset_cons_self ..
    · exact hrefl
  | createFile path =>
    refine hfails hrefl ?_
    unfold Fs.createFile
    split
    · exact hrefl
    · split
      · exact hrefl
      · split_ifs <;> exact hrefl
  | rename source target =>
    refine hfails hrefl ?_
    unfold Fs.rename
    split
    · exact hrefl
    · split_ifs <;> exact hrefl
  | hardLink original link =>
    refine hfails hrefl ?_
    unfold Fs.hardLink
    split
    · exact hrefl
    · split_ifs <;> exact hrefl
  | removeFile path =>
    refine hfails hrefl ?_
    unfold Fs.removeFile
    split_ifs <;> exact hrefl
  | isDir path => exact hrefl
  | newUuid => exact hrefl
  | openFile path => exact hfails hrefl hrefl
  | read ino pos room => exact hfails hrefl hrefl
  | write ino pos bytes => exact hfails hrefl hrefl
  | readDir dir => exact hfails hrefl hrefl

/-- A program that finds paths: if it finds any, they are as they should be. -/
abbrev Finds (P : Fs → Prop) (Good : List Path → Prop) (m : TryCall (List Path)) (seen : Fs) :
    Prop :=
  m.Under system told P KeepsDirs (fun r => ∀ paths, r = .ok paths → Good paths) seen

section Walks

variable {P : Fs → Prop} {seen : Fs}

theorem Finds.ok {Good : List Path → Prop} {paths : List Path} (h : Good paths) :
    Finds P Good (.ret (.ok paths)) seen := by
  intro paths' heq
  cases heq
  exact h

theorem Finds.error (Good : List Path → Prop) (e : Errno) :
    Finds P Good (.ret (.error e)) seen := by
  intro paths heq
  cases heq

theorem Finds.look {Good : List Path → Prop} {c : SysOp} {k : c.Answer → TryCall (List Path)}
    (h : ∀ e fs, KeepsDirs seen fs → told e c fs → P fs →
      Finds P Good (k (exec e c fs).1) (exec e c fs).2) : Finds P Good (.call c k) seen :=
  fun e fs hkeeps htold hfs _ => h e fs hkeeps htold hfs

/-- An entry is visited as a directory, or is a key. -/
theorem finds_entry {Good : List Path → Prop} {visit : Path → TryCall (List Path)} {path : Path}
    (hdir : ∀ fs, P fs → fs.isDir path = true → Finds P Good (visit path) fs)
    (hkey : ∀ fs, KeepsDirs seen fs → P fs → fs.isDir path = false → Good [path]) :
    Finds P Good (visitEntry visit path) seen := by
  refine Finds.look fun e fs hkeeps htold hfs => ?_
  have hfails : e.fails = false := htold
  have hexec : exec e (.isDir path) fs = (fs.isDir path, fs) := by
    simp only [exec, hfails]
    rfl
  rw [hexec]
  change Finds P Good (if fs.isDir path = true then _ else _) fs
  cases hisDir : fs.isDir path with
  | true => exact hdir fs hfs hisDir
  | false => exact .ok (hkey fs hkeeps hfs hisDir)

/-- What each entry comes to, the walk of a directory puts together. -/
theorem finds_entries {F : Name → List Path → Prop} {visit : Path → TryCall (List Path)}
    {dir : Path} {names : List Name}
    (h : ∀ name ∈ names, ∀ fs, KeepsDirs seen fs →
      Finds P (F name) (visitEntry visit (name :: dir)) fs) :
    Finds P (fun paths => ∃ pieces, List.Forall₂ F names pieces ∧ paths = pieces.flatten)
      (walkEntries visit dir names) seen := by
  induction names generalizing seen with
  | nil => exact .ok ⟨[], .nil, rfl⟩
  | cons name rest ih =>
    have hfirst := h name List.mem_cons_self seen (List.Subset.refl _)
    refine Prog.Under.attempt exec_keepsDirs hfirst fun found fs hfs hfound => ?_
    have hrest := fun n hn fs' hfs' =>
      h n (List.mem_cons_of_mem _ hn) fs' (List.Subset.trans hfs hfs')
    refine Prog.Under.attempt exec_keepsDirs (ih hrest) ?_
    rintro more fs' - ⟨pieces, hpieces, rfl⟩
    exact Finds.ok ⟨found :: pieces, .cons hfound hpieces, rfl⟩

/-- A walk reads its directory once. -/
theorem finds_walk {Good : List Path → Prop} {depth : Nat} {dir : Path}
    (hmissing : ∀ fs, P fs → fs.isDir dir = false → Good [])
    (hnames : ∀ fs names, P fs → fs.readDir dir = .ok names →
      Finds P Good (walkEntries (walk depth) dir names) fs) :
    Finds P Good (walk (depth + 1) dir) seen := by
  refine Finds.look fun e fs _ _ hfs => ?_
  cases hfails : e.fails with
  | true =>
    have hexec : exec e (.readDir dir) fs = (.error .io, fs) := by
      simp only [exec, hfails]
      rfl
    rw [hexec]
    exact .error _ _
  | false =>
    have hexec : exec e (.readDir dir) fs = (fs.readDir dir, fs) := by
      simp only [exec, hfails]
      rfl
    rw [hexec]
    cases hread : fs.readDir dir with
    | ok names => exact hnames fs names hfs hread
    | error err =>
      cases err with
      | notFound =>
        refine .ok (hmissing fs hfs ?_)
        cases hisDir : fs.isDir dir with
        | false => rfl
        | true => simp [Fs.readDir, hisDir] at hread
      | alreadyExists => exact .error _ _
      | notADirectory => exact .error _ _
      | isADirectory => exact .error _ _
      | io => exact .error _ _

theorem Finds.mono {Good Good' : List Path → Prop} {m : TryCall (List Path)}
    (h : Finds P Good m seen) (hgood : ∀ paths, Good paths → Good' paths) :
    Finds P Good' m seen :=
  Prog.Under.mono h fun _ hr paths heq => hgood paths (hr paths heq)

/-- A walk always ends. -/
theorem walk_ends (depth : Nat) (dir : Path) : Finds P (fun _ => True) (walk depth dir) seen := by
  induction depth generalizing dir seen with
  | zero => exact .error _ _
  | succ depth ih =>
    refine finds_walk (fun _ _ _ => trivial) fun fs names _ _ => ?_
    refine Finds.mono (finds_entries (F := fun _ _ => True) fun name _ _ _ => ?_) fun _ _ => trivial
    exact finds_entry (fun _ _ _ => ih _) fun _ _ _ _ => trivial

end Walks

theorem childOf_eq_some {dir path : Path} {name : Name} :
    Fs.childOf dir path = some name ↔ path = name :: dir := by
  cases path with
  | nil => simp [Fs.childOf]
  | cons first parent =>
    simp only [Fs.childOf]
    by_cases h : parent = dir
    · simp [h]
    · simp [h]

theorem mem_readDir {fs : Fs} {dir : Path} {names : List Name} (h : fs.readDir dir = .ok names)
    (name : Name) : name ∈ names ↔ name :: dir ∈ fs.dirs ++ fs.names.keys := by
  unfold Fs.readDir at h
  split at h
  · cases h
    simp only [List.mem_filterMap, childOf_eq_some]
    constructor
    · rintro ⟨path, hmem, rfl⟩
      exact hmem
    · exact fun hmem => ⟨_, hmem, rfl⟩
  · split at h <;> cases h

/-- The next step from a directory to a path below it. -/
theorem exists_child {dir path : Path} (h : dir <:+ path) (hne : dir ≠ path) :
    ∃ name, name :: dir <:+ path := by
  obtain ⟨below, rfl⟩ := h
  obtain rfl | ⟨first, name, rfl⟩ := below.eq_nil_or_concat
  · exact absurd rfl hne
  · exact ⟨name, first, by simp⟩

/-- What an entry has come to is among the pieces. -/
theorem isDir_cons {fs : Fs} {name : Name} {dir : Path} :
    fs.isDir (name :: dir) = true ↔ name :: dir ∈ fs.dirs := by
  simp [Fs.isDir]

/-- A file is there, and the directories on the way to it. -/
structure There (path : Path) (fs : Fs) : Prop where
  named : (fs.names.lookup path).isSome = true
  notDir : fs.isDir path = false
  way : ∀ dir, dir <:+ path → dir ≠ path → fs.isDir dir = true

theorem walk_sees {path : Path} (depth : Nat) {dir : Path} (hdir : dir <:+ path)
    (hne : dir ≠ path) (seen : Fs) : Finds (There path) (path ∈ ·) (walk depth dir) seen := by
  induction depth generalizing dir seen with
  | zero => exact .error _ _
  | succ depth ih =>
    obtain ⟨name, hname⟩ := exists_child hdir hne
    refine finds_walk (fun fs hfs h => absurd (hfs.way dir hdir hne) (by simp [h])) ?_
    intro fs names hfs hread
    have hin : name ∈ names := by
      rw [mem_readDir hread, List.mem_append]
      by_cases heq : name :: dir = path
      · right
        rw [heq, ← AList.mem_keys, ← AList.lookup_isSome]
        exact hfs.named
      · exact .inl (isDir_cons.mp (hfs.way _ hname heq))
    refine Finds.mono (finds_entries (F := fun n found => n = name → path ∈ found) ?_) ?_
    · intro n _ _ _
      by_cases hn : n = name
      · subst hn
        refine finds_entry (fun fs hfs hisDir => ?_) fun fs _ hfs hnotDir _ => ?_
        · have hbelow : n :: dir ≠ path := by
            rintro rfl
            rw [hfs.notDir] at hisDir
            cases hisDir
          exact (ih hname hbelow _).mono fun _ h _ => h
        · have heq : n :: dir = path := by
            by_contra hbelow
            rw [hfs.way _ hname hbelow] at hnotDir
            cases hnotDir
          exact List.mem_singleton.mpr heq.symm
      · refine finds_entry (fun _ _ _ => ?_) fun _ _ _ _ heq => absurd heq hn
        exact (walk_ends depth _).mono fun _ _ heq => absurd heq hn
    · rintro paths ⟨pieces, hpieces, rfl⟩
      obtain ⟨piece, hpiece, hfound⟩ := Lists.exists_related hpieces hin
      exact List.mem_flatten.mpr ⟨piece, hpiece, hfound rfl⟩

/-- None of these is a file. -/
abbrev NoFiles (S : Path → Prop) (fs : Fs) : Prop := ∀ path, S path → fs.names.lookup path = none

/-- What is found was among the names of its directory, and is no directory later: it was a file. -/
theorem walk_honest {S : Path → Prop} (depth : Nat) (dir : Path) (seen : Fs) :
    Finds (NoFiles S) (fun paths => ∀ path ∈ paths, ¬ S path) (walk depth dir) seen := by
  induction depth generalizing dir seen with
  | zero => exact .error _ _
  | succ depth ih =>
    refine finds_walk (fun _ _ _ _ h => by cases h) fun fs names hfs hread => ?_
    refine Finds.mono (finds_entries (F := fun _ found => ∀ path ∈ found, ¬ S path)
      fun name hname fs' hfs' => finds_entry (fun _ _ _ => ih _ _)
        fun fs'' hfs'' _ hnotDir path hin hS => ?_) ?_
    · obtain rfl := List.mem_singleton.mp hin
      rw [mem_readDir hread, List.mem_append] at hname
      obtain hdirs | hkeys := hname
      · rw [isDir_cons.mpr (hfs'' (hfs' hdirs))] at hnotDir
        cases hnotDir
      · rw [← AList.mem_keys, ← AList.lookup_isSome, hfs _ hS] at hkeys
        cases hkeys
    · rintro paths ⟨pieces, hpieces, rfl⟩ path hin
      obtain ⟨piece, hpiece, hfound⟩ := List.mem_flatten.mp hin
      obtain ⟨_, _, hnot⟩ := Lists.exists_related hpieces.flip hpiece
      exact hnot path hfound

/-- Each directory is there once and its parent with it, and no file is a directory. -/
structure Tidy (fs : Fs) : Prop where
  nodup : fs.dirs.Nodup
  root : [] ∉ fs.dirs
  parents : ∀ dir ∈ fs.dirs, fs.isDir dir.tail = true
  files : ∀ path ∈ fs.names.keys, fs.isDir path = false ∧ fs.isDir path.tail = true

namespace Tidy

variable {fs : Fs}

theorem empty : Tidy {} :=
  ⟨List.nodup_nil, List.not_mem_nil, fun _ h => (by cases h), fun _ h => (by cases h)⟩

/-- A directory's parents are directories. -/
theorem isDir_of_suffix (h : Tidy fs) {dir path : Path} (hpath : fs.isDir path = true)
    (hdir : dir <:+ path) : fs.isDir dir = true := by
  induction path with
  | nil =>
    obtain rfl := List.suffix_nil.mp hdir
    exact hpath
  | cons name parent ih =>
    obtain rfl | hbelow := List.suffix_cons_iff.mp hdir
    · exact hpath
    · exact ih (h.parents _ (isDir_cons.mp hpath)) hbelow

theorem there (h : Tidy fs) {path : Path} (hpath : path ∈ fs.names.keys) : There path fs where
  named := AList.lookup_isSome.mpr (AList.mem_keys.mpr hpath)
  notDir := (h.files path hpath).1
  way dir hdir hne := by
    cases path with
    | nil => exact absurd (h.files [] hpath).1 (by simp [Fs.isDir])
    | cons name parent =>
      obtain rfl | hbelow := List.suffix_cons_iff.mp hdir
      · exact absurd rfl hne
      · exact h.isDir_of_suffix (h.files _ hpath).2 hbelow

theorem names_nodup (h : Tidy fs) {dir : Path} {names : List Name}
    (hread : fs.readDir dir = .ok names) : names.Nodup := by
  unfold Fs.readDir at hread
  split at hread
  · cases hread
    refine List.Nodup.filterMap (fun path path' name hname hname' => ?_) ?_
    · rw [Option.mem_def, childOf_eq_some] at hname hname'
      rw [hname, hname']
    · refine h.nodup.append fs.names.nodupKeys fun path hdirs hkeys => ?_
      have hnot := (h.files path hkeys).1
      simp [Fs.isDir, hdirs] at hnot
  · split at hread <;> cases hread

end Tidy

/-- The files below a directory. -/
def below (fs : Fs) (dir : Path) : List Path :=
  fs.names.keys.filter fun path => decide (dir <:+ path ∧ dir ≠ path)

theorem mem_below {fs : Fs} {dir path : Path} :
    path ∈ below fs dir ↔ path ∈ fs.names.keys ∧ dir <:+ path ∧ dir ≠ path := by
  simp [below]

/-- The files at an entry of a directory, or below it. -/
def atEntry (fs : Fs) (dir : Path) (name : Name) : List Path :=
  if fs.isDir (name :: dir) then below fs (name :: dir) else [name :: dir]

theorem mem_atEntry {fs : Fs} {dir path : Path} {name : Name} (h : path ∈ atEntry fs dir name) :
    name :: dir <:+ path := by
  unfold atEntry at h
  split at h
  · exact (mem_below.mp h).2.1
  · obtain rfl := List.mem_singleton.mp h
    exact List.suffix_rfl

theorem suffix_unique {dir path : Path} {name name' : Name} (h : name :: dir <:+ path)
    (h' : name' :: dir <:+ path) : name = name' := by
  obtain hle | hle := List.suffix_or_suffix_of_suffix h h'
  · exact (List.cons.inj (hle.eq_of_length rfl)).1
  · exact (List.cons.inj (hle.eq_of_length rfl)).1.symm

/-- The files below a directory are those at its entries. -/
theorem atEntries_perm {fs : Fs} (h : Tidy fs) {dir : Path} {names : List Name}
    (hread : fs.readDir dir = .ok names) :
    (names.flatMap (atEntry fs dir)).Perm (below fs dir) := by
  have hkeys : fs.names.keys.Nodup := fs.names.nodupKeys
  rw [List.perm_ext_iff_of_nodup]
  · intro path
    rw [List.mem_flatMap, mem_below]
    constructor
    · rintro ⟨name, hname, hat⟩
      have hsuffix := mem_atEntry hat
      have hbelow : dir <:+ path ∧ dir ≠ path := by
        refine ⟨(List.suffix_cons name dir).trans hsuffix, ?_⟩
        rintro rfl
        exact absurd hsuffix.length_le (Nat.not_succ_le_self _)
      refine ⟨?_, hbelow⟩
      unfold atEntry at hat
      split at hat
      · exact (mem_below.mp hat).1
      · obtain rfl := List.mem_singleton.mp hat
        rw [mem_readDir hread, List.mem_append] at hname
        exact hname.resolve_left fun hdirs => absurd (isDir_cons.mpr hdirs) ‹_›
    · rintro ⟨hpath, hdir, hne⟩
      obtain ⟨name, hname⟩ := exists_child hdir hne
      have hthere := h.there hpath
      refine ⟨name, ?_, ?_⟩
      · rw [mem_readDir hread, List.mem_append]
        by_cases heq : name :: dir = path
        · exact .inr (heq ▸ hpath)
        · exact .inl (isDir_cons.mp (hthere.way _ hname heq))
      · unfold atEntry
        by_cases heq : name :: dir = path
        · rw [heq, hthere.notDir]
          exact List.mem_singleton.mpr rfl
        · rw [hthere.way _ hname heq]
          exact mem_below.mpr ⟨hpath, hname, heq⟩
  · refine List.nodup_flatMap.mpr ⟨fun name _ => ?_, ?_⟩
    · unfold atEntry
      split
      · exact hkeys.filter _
      · exact List.nodup_singleton _
    · refine (h.names_nodup hread).imp fun {name name'} hne path hat hat' => ?_
      exact hne (suffix_unique (mem_atEntry hat) (mem_atEntry hat'))
  · exact hkeys.filter _

theorem walk_exact {fs : Fs} (h : Tidy fs) (depth : Nat) (dir : Path) :
    Finds (· = fs) (List.Perm (below fs dir)) (walk depth dir) seen := by
  induction depth generalizing dir seen with
  | zero => exact .error _ _
  | succ depth ih =>
    refine finds_walk (fun fs' hfs hnotDir => ?_) fun fs' names hfs hread => ?_
    · subst hfs
      have hnone : below fs' dir = [] := by
        rw [List.eq_nil_iff_forall_not_mem]
        intro path hpath
        obtain ⟨hin, hdir, hne⟩ := mem_below.mp hpath
        rw [(h.there hin).way dir hdir hne] at hnotDir
        cases hnotDir
      rw [hnone]
    · subst hfs
      refine Finds.mono (finds_entries (F := fun name found => (atEntry fs' dir name).Perm found)
        fun name _ _ _ => finds_entry (fun fs hfs hisDir => ?_) fun fs _ hfs hnotDir => ?_) ?_
      · subst hfs
        simp only [atEntry, hisDir, if_true]
        exact ih _
      · subst hfs
        simp only [atEntry, hnotDir]
        exact List.Perm.refl _
      · rintro paths ⟨pieces, hpieces, rfl⟩
        refine (atEntries_perm h hread).symm.trans ?_
        exact List.Perm.flatten_congr (List.forall₂_map_left_iff.mpr hpieces)

namespace Tidy

variable {fs : Fs}

/-- The names of files change. -/
theorem names (h : Tidy fs) {names : Blobs Path Ino}
    (hnew : ∀ path ∈ names, path ∈ fs.names ∨ fs.isDir path = false ∧ fs.isDir path.tail = true) :
    Tidy { fs with names := names } where
  nodup := h.nodup
  root := h.root
  parents := h.parents
  files path hpath := by
    obtain hold | hfile := hnew path (AList.mem_keys.mpr hpath)
    · exact h.files path (AList.mem_keys.mp hold)
    · exact hfile

theorem insert (h : Tidy fs) {path : Path} (ino : Ino) (hfile : fs.isDir path = false)
    (hparent : fs.isDir path.tail = true) : Tidy { fs with names := fs.names.insert path ino } := by
  refine h.names fun path' hpath' => ?_
  obtain rfl | hold := (AList.mem_insert _).mp hpath'
  · exact .inr ⟨hfile, hparent⟩
  · exact .inl hold

theorem erase (h : Tidy fs) (path : Path) : Tidy { fs with names := fs.names.erase path } :=
  h.names fun _ hpath => .inl (AList.mem_erase.mp hpath).2

theorem mkdir (h : Tidy fs) (dir : Path) : Tidy (fs.mkdir dir).2 := by
  unfold Fs.mkdir
  split
  · exact h
  · split
    · rename_i hnew hparent
      simp only [Bool.or_eq_true, not_or, Bool.not_eq_true] at hnew
      obtain ⟨hdir, hfile⟩ := hnew
      have hne : dir ≠ [] := by
        rintro rfl
        simp [Fs.isDir] at hdir
      have hnot : dir ∉ fs.dirs := by
        intro hmem
        simp [Fs.isDir, hmem] at hdir
      have hmore {path : Path} (hpath : fs.isDir path = true) :
          Fs.isDir { fs with dirs := dir :: fs.dirs } path = true := by
        simp only [Fs.isDir, Bool.or_eq_true, List.contains_cons] at hpath ⊢
        exact hpath.imp id .inr
      refine ⟨List.nodup_cons.mpr ⟨hnot, h.nodup⟩, ?_, fun path hpath => ?_, fun path hpath => ?_⟩
      · exact fun hroot => (List.mem_cons.mp hroot).elim (fun heq => hne heq.symm) h.root
      · obtain rfl | hold := List.mem_cons.mp hpath
        · exact hmore hparent
        · exact hmore (h.parents path hold)
      · obtain ⟨hnotDir, hway⟩ := h.files path hpath
        refine ⟨?_, hmore hway⟩
        have hother : path ≠ dir := by
          rintro rfl
          rw [AList.lookup_isSome.mpr (AList.mem_keys.mpr hpath)] at hfile
          cases hfile
        simp only [Fs.isDir, Bool.or_eq_false_iff, List.contains_cons] at hnotDir ⊢
        exact ⟨hnotDir.1, by simpa using hother, hnotDir.2⟩
    · exact h

theorem createFile (h : Tidy fs) (path : Path) : Tidy (fs.createFile path).2 := by
  unfold Fs.createFile
  split
  · exact h
  · rename_i hdir
    split
    · exact ⟨h.nodup, h.root, h.parents, h.files⟩
    · split
      · rename_i hparent
        have hnew := h.insert fs.next (Bool.not_eq_true _ ▸ hdir) hparent
        exact ⟨hnew.nodup, hnew.root, hnew.parents, hnew.files⟩
      · exact h

theorem rename (h : Tidy fs) (source target : Path) : Tidy (fs.rename source target).2 := by
  unfold Fs.rename
  split
  · exact h
  · rename_i ino _
    split
    · exact h
    · rename_i hdir
      split
      · exact h
      · split
        · rename_i hparent
          exact (h.erase source).insert ino (Bool.not_eq_true _ ▸ hdir) hparent
        · exact h

theorem hardLink (h : Tidy fs) (original link : Path) : Tidy (fs.hardLink original link).2 := by
  unfold Fs.hardLink
  split
  · exact h
  · rename_i ino _
    split
    · exact h
    · rename_i hdir
      split
      · rename_i hparent
        simp only [Bool.or_eq_true, not_or, Bool.not_eq_true] at hdir
        exact h.insert ino hdir.1 hparent
      · exact h

theorem removeFile (h : Tidy fs) (path : Path) : Tidy (fs.removeFile path).2 := by
  unfold Fs.removeFile
  split
  · exact h
  · split
    · exact h.erase path
    · exact h

end Tidy

/-- No call makes an untidy system of a tidy one. -/
theorem exec_tidy {fs : Fs} (h : Tidy fs) (e : Chance) (o : SysOp) : Tidy (exec e o fs).2 := by
  have hfails {A : Type} {r r' : A × Fs} (hr : Tidy r.2) (hr' : Tidy r'.2) :
      Tidy (if e.fails = true then r else r').2 := by
    split
    · exact hr
    · exact hr'
  cases o with
  | mkdir dir => exact hfails h (h.mkdir dir)
  | isDir path => exact h
  | newUuid => exact ⟨h.nodup, h.root, h.parents, h.files⟩
  | openFile path => exact hfails h h
  | read ino pos room => exact hfails h h
  | createFile path => exact hfails h (h.createFile path)
  | write ino pos bytes => exact hfails h ⟨h.nodup, h.root, h.parents, h.files⟩
  | rename source target => exact hfails h (h.rename source target)
  | hardLink original link => exact hfails h (h.hardLink original link)
  | removeFile path => exact hfails h (h.removeFile path)
  | readDir dir => exact hfails h h

section Runs

variable {ι : Type} [DecidableEq ι]

abbrev ListingConfig (ι : Type) := Config sys Fs ι (Except Errno (List Name))

/-- The process can tell what is a directory. -/
def Told (i : ι) (c : ListingConfig ι) (j : ι) (e : Chance) : Prop :=
  ∀ path k, j = i → (c.procs i).prog = .call (SysOp.isDir path) k → e.fails = false

theorem tidy_run (c : ListingConfig ι) (moves : List (ι × Chance)) (h : Tidy c.shared) :
    Tidy (c.run system moves).shared := by
  induction moves generalizing c with
  | nil => exact h
  | cons m moves ih =>
    refine ih (c.step system m.1 m.2) ?_
    rw [Config.step_shared]
    cases (c.procs m.1).prog with
    | ret a => exact h
    | call o k => exact exec_tidy h m.2 o

/-- A listing finds what an assertion that holds all along says of its walk. -/
theorem list_run {P : Fs → Prop} {Good : List Path → Prop} {depth : Nat} {pre : Prefix}
    {c : ListingConfig ι} {i : ι} (hwalk : Finds P Good (walk depth (baseDir pre.text)) c.shared)
    (hstart : c.procs i = .start (list depth pre)) {moves : List (ι × Chance)}
    (htold : c.Guarded system (Told i) moves)
    (hP : c.Throughout system (fun d => P d.shared) moves) {keys : List Name}
    (hret : ((c.run system moves).procs i).prog = .ret (.ok keys)) :
    ∃ paths, Good paths ∧ keys = sortKeys ((paths.map keyOf).filter pre.text.isPrefixOf) := by
  have hlist : (c.procs i).prog.Under system told P KeepsDirs (fun r => ∀ keys, r = .ok keys →
      ∃ paths, Good paths ∧ keys = sortKeys ((paths.map keyOf).filter pre.text.isPrefixOf))
      c.shared := by
    rw [hstart]
    refine Prog.Under.attempt exec_keepsDirs hwalk fun paths _ _ hgood keys heq => ?_
    cases heq
    exact ⟨paths, hgood, rfl⟩
  have htells : c.Guarded system (Tells told i) moves := by
    refine htold.mono fun c j e htell o k hj hcall => ?_
    cases o with
    | isDir path => exact htell path k hj hcall
    | mkdir dir => trivial
    | newUuid => trivial
    | openFile path => trivial
    | read ino pos room => trivial
    | createFile path => trivial
    | write ino pos bytes => trivial
    | rename source target => trivial
    | hardLink original link => trivial
    | removeFile path => trivial
    | readDir dir => trivial
  have hend := hlist.run exec_keepsDirs htells hP
  rw [hret] at hend
  exact hend keys rfl

/-- What holds of each path all along holds of all of them all along. -/
theorem throughout_forall {S : Path → Prop} {c : ListingConfig ι} {moves : List (ι × Chance)}
    (h : ∀ path, S path → c.Throughout system (fun d => d.shared.names.lookup path = none) moves) :
    c.Throughout system (fun d => NoFiles S d.shared) moves := by
  induction moves generalizing c with
  | nil => exact h
  | cons m moves ih => exact ⟨fun path hS => (h path hS).1, ih fun path hS => (h path hS).2⟩

/-- A listing of keys that come and go while it walks: it has every file that was there all along,
and none that was never there; and it is sorted. -/
theorem list_between {depth : Nat} {pre : Prefix} {c : ListingConfig ι} {i : ι}
    (hstart : c.procs i = .start (list depth pre)) {moves : List (ι × Chance)}
    (htold : c.Guarded system (Told i) moves) {keys : List Name}
    (hret : ((c.run system moves).procs i).prog = .ret (.ok keys)) :
    (∀ path, Clean path → path ≠ [] → pre.text <+: keyOf path →
        c.Throughout system (fun d => There path d.shared) moves → keyOf path ∈ keys) ∧
      (∀ key ∈ keys, pre.text <+: key ∧ ∃ path, keyOf path = key ∧
        ¬ c.Throughout system (fun d => d.shared.names.lookup path = none) moves) ∧
      keys.Pairwise (· ≤ ·) := by
  refine ⟨fun path hclean hne hpre hthere => ?_, fun key hkey => ?_, ?_⟩
  · obtain ⟨hdir, hbelow⟩ := baseDir_suffix hclean hne hpre
    obtain ⟨paths, hin, rfl⟩ := list_run (walk_sees depth hdir hbelow _) hstart htold hthere hret
    rw [mem_sortKeys, List.mem_filter]
    exact ⟨List.mem_map_of_mem hin, List.isPrefixOf_iff_prefix.mpr hpre⟩
  · by_contra hnever
    obtain ⟨paths, _, rfl⟩ := list_run (P := fun _ => True) (walk_ends depth _) hstart
      htold (Config.throughout_of_forall fun _ => trivial) hret
    obtain ⟨hmapped, hpre⟩ := List.mem_filter.mp (mem_sortKeys.mp hkey)
    have hnone : c.Throughout system
        (fun d => NoFiles (fun path => keyOf path = key) d.shared) moves := by
      refine throughout_forall fun path hpath => ?_
      by_contra hsome
      exact hnever ⟨List.isPrefixOf_iff_prefix.mp hpre, path, hpath, hsome⟩
    obtain ⟨paths', hhonest, hsame⟩ := list_run (walk_honest depth _ _) hstart htold hnone hret
    rw [hsame, mem_sortKeys] at hkey
    obtain ⟨path, hin, heq⟩ := List.mem_map.mp (List.mem_filter.mp hkey).1
    exact hhonest path hin heq
  · obtain ⟨paths, _, rfl⟩ := list_run (P := fun _ => True) (walk_ends depth _) hstart
      htold (Config.throughout_of_forall fun _ => trivial) hret
    exact sortKeys_sorted _

def anyKey : Prefix := ⟨[], .inl rfl⟩

/-- A listing, and somebody who removes a file. -/
def listAndRemove (gone : Path) : Bool → Proc sys (Except Errno (List Name))
  | true => .start (list 2 anyKey)
  | false => .start ((removeFile gone).attempt fun _ => .ret (.ok []))

def twoFiles : Fs := { names := (AList.insert [['b']] 1 ∅).insert [['a']] 0, next := 2 }

/-- The file goes once its directory has been read. -/
def removedLate : List (Bool × Chance) := [(true, {}), (false, {}), (true, {}), (true, {})]

theorem list_between_removedLate :
    (∀ path, Clean path → path ≠ [] → [] <+: keyOf path →
        Config.Throughout system (fun d => There path d.shared)
          ⟨twoFiles, listAndRemove [['b']]⟩ removedLate → keyOf path ∈ [['a'], ['b']]) ∧
      (∀ key ∈ [['a'], ['b']], [] <+: key ∧ ∃ path, keyOf path = key ∧
        ¬ Config.Throughout system (fun d => d.shared.names.lookup path = none)
          ⟨twoFiles, listAndRemove [['b']]⟩ removedLate) ∧
      [['a'], ['b']].Pairwise (fun a b : Name => a ≤ b) := by
  have htold : Config.Guarded system (Told true) ⟨twoFiles, listAndRemove [['b']]⟩
      removedLate :=
    ⟨fun _ _ _ _ => rfl, fun _ _ _ _ => rfl, fun _ _ _ _ => rfl, fun _ _ _ _ => rfl, trivial⟩
  have hstart : listAndRemove [['b']] true = .start (list 2 anyKey) := rfl
  exact list_between hstart htold rfl

/-- Where nothing changes while it walks, a listing is all the keys there are, in order: those that
were stored, and the temporary names that are left behind. -/
theorem list_exact {depth : Nat} {pre : Prefix} {c₀ c : ListingConfig ι} {i : ι}
    {before moves : List (ι × Chance)} (hempty : c₀.shared = {}) (hc : c = c₀.run system before)
    (hclean : ∀ path ∈ c.shared.names.keys, Clean path)
    (hstart : c.procs i = .start (list depth pre))
    (htold : c.Guarded system (Told i) moves)
    (hquiet : c.Throughout system (fun d => d.shared = c.shared) moves) {keys : List Name}
    (hret : ((c.run system moves).procs i).prog = .ret (.ok keys)) :
    keys = sortKeys ((c.shared.names.keys.map keyOf).filter pre.text.isPrefixOf) := by
  have htidy : Tidy c.shared := by
    rw [hc]
    exact tidy_run c₀ before (hempty ▸ Tidy.empty)
  obtain ⟨paths, hperm, rfl⟩ :=
    list_run (walk_exact htidy depth (baseDir pre.text)) hstart htold hquiet hret
  apply sortKeys_eq_iff.mpr
  have hall : ((below c.shared (baseDir pre.text)).map keyOf).filter pre.text.isPrefixOf =
      (c.shared.names.keys.map keyOf).filter pre.text.isPrefixOf := by
    rw [List.filter_map, List.filter_map, below, List.filter_filter]
    refine congrArg _ (List.filter_congr fun path hpath => ?_)
    rw [Function.comp_apply, Bool.and_eq_left_iff_imp]
    intro hpre
    have hne : path ≠ [] := by
      rintro rfl
      exact absurd (htidy.files [] hpath).1 (by simp [Fs.isDir])
    exact decide_eq_true
      (baseDir_suffix (hclean path hpath) hne (List.isPrefixOf_iff_prefix.mp hpre))
  rw [← hall]
  exact (hperm.symm.map keyOf).filter _

/-- A listing, and a `create` that has stopped before it could remove its temporary file. -/
def listAndLeave : Bool → Proc sys (Except Errno (List Name))
  | true => .start (list 2 ⟨['a'], .inl rfl⟩)
  | false => .start ((createFile [['a', '.', 't', 'm', 'p', '-', '1']]).attempt fun _ =>
      (hardLink [['a', '.', 't', 'm', 'p', '-', '1']] [['a']]).attempt fun _ => .ret (.ok []))

def leaving : List (Bool × Chance) := [(false, {}), (false, {})]

theorem list_exact_leaving :
    [['a'], ['a', '.', 't', 'm', 'p', '-', '1']] = sortKeys
      (((Config.run system ⟨{}, listAndLeave⟩ leaving).shared.names.keys.map keyOf).filter
        (List.isPrefixOf ['a'])) := by
  have hclean : ∀ path ∈ (Config.run system ⟨{}, listAndLeave⟩ leaving).shared.names.keys,
      Clean path := by
    intro path hpath name hname
    have hkeys : (Config.run system ⟨{}, listAndLeave⟩ leaving).shared.names.keys =
        [[['a']], [['a', '.', 't', 'm', 'p', '-', '1']]] := rfl
    rw [hkeys, List.mem_cons, List.mem_singleton] at hpath
    obtain rfl | rfl := hpath
    · obtain rfl := List.mem_singleton.mp hname
      decide
    · obtain rfl := List.mem_singleton.mp hname
      decide
  have hstart : (Config.run system ⟨{}, listAndLeave⟩ leaving).procs true =
      .start (list 2 ⟨['a'], .inl rfl⟩) := rfl
  have htold : (Config.run system ⟨{}, listAndLeave⟩ leaving).Guarded system (Told true)
      [(true, {}), (true, {}), (true, {})] :=
    ⟨fun _ _ _ _ => rfl, fun _ _ _ _ => rfl, fun _ _ _ _ => rfl, trivial⟩
  exact list_exact rfl rfl hclean hstart htold ⟨rfl, rfl, rfl, rfl⟩ rfl

end Runs

end Fafo.FsStore
