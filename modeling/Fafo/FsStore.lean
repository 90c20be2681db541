import Mathlib.Data.List.Sort
import Fafo.Listing
import Fafo.Library.Possibilities

/-! The blob store in files: what each of its operations asks of the file system. -/
namespace Fafo.FsStore

open Interleave
open Listing (Name)

abbrev Bytes := List UInt8

/-- A path below the root, the innermost name first. -/
abbrev Path := List Name

/-- `path_for`: no part of a key may be empty, `.` or `..`. -/
def pathFor (key : Name) : Option Path :=
  let parts := key.splitOn '/'
  if parts.any fun part => part.isEmpty || part == ['.'] || part == ['.', '.'] then none
  else some parts.reverse

/-- The text of a path, as `walk` gives it: a backslash is turned into a slash. -/
def keyOf (path : Path) : Name :=
  (List.intercalate ['/'] path.reverse).map fun c => if c = '\\' then '/' else c

theorem mem_intercalate {sep c : Char} {parts : List Name}
    (h : c ∈ List.intercalate [sep] parts) : c = sep ∨ ∃ part ∈ parts, c ∈ part := by
  induction parts with
  | nil => cases h
  | cons part rest ih =>
    cases rest with
    | nil =>
      rw [List.intercalate_singleton] at h
      exact .inr ⟨part, List.mem_cons_self, h⟩
    | cons next rest =>
      rw [List.intercalate_cons_cons, List.mem_append, List.mem_append, List.mem_singleton] at h
      obtain (hpart | hsep) | hrest := h
      · exact .inr ⟨part, List.mem_cons_self, hpart⟩
      · exact .inl hsep
      · obtain hsep | ⟨part', hpart', hin⟩ := ih hrest
        · exact .inl hsep
        · exact .inr ⟨part', List.mem_cons_of_mem _ hpart', hin⟩

/-- What follows the last dot of a name. -/
def afterDot (name : Name) : Name := (name.reverse.takeWhile (· ≠ '.')).reverse

/-- A file name without its extension. A name whose only dot comes first has none. -/
def fileStem (name : Name) : Name :=
  match name.reverse.dropWhile (· ≠ '.') with
  | [] => name
  | [_] => name
  | _ :: before => before.reverse

/-- `.tmp-` -/
def tmpMark : Name := ['.', 't', 'm', 'p', '-']

/-- `path.with_extension("tmp-…")` -/
def tmpFor : Path → Name → Path
  | [], _ => []
  | name :: dir, uuid => (fileStem name ++ tmpMark ++ uuid) :: dir

/-- A file, apart from its names. -/
abbrev Ino := Nat

inductive Errno where
  | notFound
  | alreadyExists
  | notADirectory
  | isADirectory
  | io
  deriving DecidableEq, Repr

/-- The directories below the root, the names of the files and what is in them, and the ids drawn so
far. Directories are never removed, and a file's number is never used again. -/
structure Fs where
  dirs : List Path := []
  names : Blobs Path Ino := ∅
  content : Ino → Bytes := fun _ => []
  next : Ino := 0
  drawn : List Name := []

namespace Fs

def isDir (fs : Fs) (path : Path) : Bool := path.isEmpty || fs.dirs.contains path

/-- Why a path cannot be gone to: some directory on the way is a file, or is not there. -/
def missing (fs : Fs) (path : Path) : Errno :=
  if path.tail.tails.any fun dir => (fs.names.lookup dir).isSome then .notADirectory else .notFound

def mkdir (fs : Fs) (dir : Path) : Except Errno Unit × Fs :=
  if fs.isDir dir || (fs.names.lookup dir).isSome then (.error .alreadyExists, fs)
  else if fs.isDir dir.tail then (.ok (), { fs with dirs := dir :: fs.dirs })
  else (.error (fs.missing dir), fs)

/-- Opened for reading. To open a directory succeeds, and to read it fails: here the two are one. -/
def openFile (fs : Fs) (path : Path) : Except Errno Ino :=
  match fs.names.lookup path with
  | some ino => .ok ino
  | none => if fs.isDir path then .error .isADirectory else .error (fs.missing path)

/-- Opened for writing: created, or cut to nothing. -/
def createFile (fs : Fs) (path : Path) : Except Errno Ino × Fs :=
  if fs.isDir path then (.error .isADirectory, fs) else
  match fs.names.lookup path with
  | some ino => (.ok ino, { fs with content := Function.update fs.content ino [] })
  | none =>
    if fs.isDir path.tail then
      (.ok fs.next, { fs with
        names := fs.names.insert path fs.next
        content := Function.update fs.content fs.next []
        next := fs.next + 1 })
    else (.error (fs.missing path), fs)

/-- A file is written from a position, which is never past its end. -/
def write (fs : Fs) (ino : Ino) (pos : Nat) (bytes : Bytes) : Fs :=
  let old := fs.content ino
  let new := old.take pos ++ bytes ++ old.drop (pos + bytes.length)
  { fs with content := Function.update fs.content ino new }

/-- Two names of one file are left as they are. -/
def rename (fs : Fs) (source target : Path) : Except Errno Unit × Fs :=
  match fs.names.lookup source with
  | none => (.error (fs.missing source), fs)
  | some ino =>
    if fs.isDir target then (.error .isADirectory, fs)
    else if fs.names.lookup target = some ino then (.ok (), fs)
    else if fs.isDir target.tail then
      (.ok (), { fs with names := (fs.names.erase source).insert target ino })
    else (.error (fs.missing target), fs)

/-- A second name, which must not be there. -/
def hardLink (fs : Fs) (original link : Path) : Except Errno Unit × Fs :=
  match fs.names.lookup original with
  | none => (.error (fs.missing original), fs)
  | some ino =>
    if fs.isDir link || (fs.names.lookup link).isSome then (.error .alreadyExists, fs)
    else if fs.isDir link.tail then (.ok (), { fs with names := fs.names.insert link ino })
    else (.error (fs.missing link), fs)

def removeFile (fs : Fs) (path : Path) : Except Errno Unit × Fs :=
  if fs.isDir path then (.error .isADirectory, fs)
  else if (fs.names.lookup path).isSome then
    (.ok (), { fs with names := fs.names.erase path })
  else (.error (fs.missing path), fs)

/-- The name of a path in the directory. -/
def childOf (dir : Path) : Path → Option Name
  | [] => none
  | name :: parent => if parent = dir then some name else none

/-- The names in a directory, which is read whole. -/
def readDir (fs : Fs) (dir : Path) : Except Errno (List Name) :=
  if fs.isDir dir then .ok ((fs.dirs ++ fs.names.keys).filterMap (childOf dir))
  else if (fs.names.lookup dir).isSome then .error .notADirectory
  else .error (fs.missing dir)

end Fs

/-- The calls a store makes. -/
inductive SysOp where
  | mkdir (dir : Path)
  | isDir (path : Path)
  | newUuid
  | openFile (path : Path)
  | read (ino : Ino) (pos room : Nat)
  | createFile (path : Path)
  | write (ino : Ino) (pos : Nat) (bytes : Bytes)
  | rename (source target : Path)
  | hardLink (original link : Path)
  | removeFile (path : Path)
  | readDir (dir : Path)

def SysOp.Answer : SysOp → Type
  | mkdir _ | rename _ _ | hardLink _ _ | removeFile _ => Except Errno Unit
  | isDir _ => Bool
  | newUuid => Name
  | openFile _ | createFile _ => Except Errno Ino
  | read _ _ _ => Except Errno Bytes
  | write _ _ _ => Except Errno Nat
  | readDir _ => Except Errno (List Name)

abbrev sys : Signature := ⟨SysOp, SysOp.Answer⟩

/-- What the system does with one call: it can fail, a read or a write can be of as few bytes as it
likes, and an id is drawn. -/
structure Chance where
  fails : Bool := false
  gives : Nat := 1
  uuid : Name := []
  deriving DecidableEq, Repr

def exec (e : Chance) : (o : SysOp) → Fs → o.Answer × Fs
  | .mkdir dir, fs => if e.fails then (.error .io, fs) else fs.mkdir dir
  | .isDir path, fs => (!e.fails && fs.isDir path, fs)
  | .newUuid, fs => (e.uuid, { fs with drawn := e.uuid :: fs.drawn })
  | .openFile path, fs => if e.fails then (.error .io, fs) else (fs.openFile path, fs)
  | .read ino pos room, fs =>
    if e.fails then (.error .io, fs)
    else (.ok (((fs.content ino).drop pos).take (min room (max 1 e.gives))), fs)
  | .createFile path, fs => if e.fails then (.error .io, fs) else fs.createFile path
  | .write ino pos bytes, fs =>
    if e.fails then (.error .io, fs) else
    let given := bytes.take (max 1 e.gives)
    (.ok given.length, fs.write ino pos given)
  | .rename source target, fs =>
    if e.fails then (.error .io, fs) else fs.rename source target
  | .hardLink original link, fs =>
    if e.fails then (.error .io, fs) else fs.hardLink original link
  | .removeFile path, fs => if e.fails then (.error .io, fs) else fs.removeFile path
  | .readDir dir, fs => if e.fails then (.error .io, fs) else (fs.readDir dir, fs)

def system : Machine sys Fs Chance := ⟨exec⟩

abbrev Call (α : Type) := Prog sys α

/-- Calls whose errors are propagated. -/
abbrev TryCall (α : Type) := Call (Except Errno α)

def mkdir (dir : Path) : TryCall Unit := .call (SysOp.mkdir dir) .ret
def isDir (path : Path) : Call Bool := .call (SysOp.isDir path) .ret
def newUuid : Call Name := .call SysOp.newUuid .ret
def openFile (path : Path) : TryCall Ino := .call (SysOp.openFile path) .ret
def readFile (ino : Ino) (pos room : Nat) : TryCall Bytes := .call (SysOp.read ino pos room) .ret
def createFile (path : Path) : TryCall Ino := .call (SysOp.createFile path) .ret
def writeFile (ino : Ino) (pos : Nat) (bytes : Bytes) : TryCall Nat :=
  .call (SysOp.write ino pos bytes) .ret
def rename (source target : Path) : TryCall Unit := .call (SysOp.rename source target) .ret
def hardLink (original link : Path) : TryCall Unit := .call (SysOp.hardLink original link) .ret
def removeFile (path : Path) : TryCall Unit := .call (SysOp.removeFile path) .ret
def readDir (dir : Path) : TryCall (List Name) := .call (SysOp.readDir dir) .ret

/-- Made, or there already. -/
def madeDir (dir : Path) : Except Errno Unit → TryCall Unit
  | .ok () => .ret (.ok ())
  | .error e => (isDir dir).bind fun there => .ret (if there then .ok () else .error e)

/-- The directory, then its parents if they are missing, then the directory. -/
def createDirAll : Path → TryCall Unit
  | [] => (mkdir []).bind (madeDir [])
  | name :: parent =>
    (mkdir (name :: parent)).bind fun r =>
      match r with
      | .error .notFound =>
        (createDirAll parent).attempt fun _ =>
          (mkdir (name :: parent)).bind (madeDir (name :: parent))
      | r => madeDir (name :: parent) r

/-- The writes that are left; each writes something, so that there are no more than bytes. -/
def writeAll : Nat → Ino → Nat → Bytes → TryCall Unit
  | _, _, _, [] => .ret (.ok ())
  | 0, _, _, _ => .ret (.error .io)
  | calls + 1, ino, pos, bytes =>
    (writeFile ino pos bytes).attempt fun n =>
      if n = 0 then .ret (.error .io) else writeAll calls ino (pos + n) (bytes.drop n)

/-- `std::fs::write` -/
def writeNew (path : Path) (bytes : Bytes) : TryCall Unit :=
  (createFile path).attempt fun ino => writeAll bytes.length ino 0 bytes

/-- The reads that are left, of a reader with a limit of its own. -/
def readToEnd (room : Nat) : Nat → Ino → Bytes → TryCall Bytes
  | 0, _, _ => .ret (.error .io)
  | calls + 1, ino, got =>
    (readFile ino got.length room).attempt fun bytes =>
      if bytes.isEmpty then .ret (.ok got) else readToEnd room calls ino (got ++ bytes)

/-- How many bytes a reader asks for at a time, and how many times. -/
structure Reader where
  room : Nat
  calls : Nat
  room_pos : 0 < room

/-- Any error of the system is one of the store. -/
def answer {α : Type} : Except Errno α → Except Error α
  | .ok a => .ok a
  | .error _ => .error .unavailable

def getAt (reader : Reader) (path : Path) : Call (Except Error (Option Bytes)) :=
  (openFile path).bind fun r =>
    match r with
    | .ok ino =>
      (readToEnd reader.room reader.calls ino []).bind fun r => .ret ((answer r).map some)
    | .error .notFound => .ret (.ok none)
    | .error _ => .ret (.error .unavailable)

/-- Everything up to the temporary file that holds the bytes. -/
def writeTmp (path : Path) (bytes : Bytes) : TryCall Path :=
  (createDirAll path.tail).attempt fun _ =>
    newUuid.bind fun uuid =>
      (writeNew (tmpFor path uuid) bytes).attempt fun _ => .ret (.ok (tmpFor path uuid))

def putAt (path : Path) (bytes : Bytes) : Call (Except Error Unit) :=
  ((writeTmp path bytes).attempt fun tmp => rename tmp path).bind fun r => .ret (answer r)

/-- What has come of the removal. -/
def removed : Except Errno Unit → Except Error Unit
  | .ok () => .ok ()
  | .error .notFound => .ok ()
  | .error _ => .error .unavailable

def deleteAt (path : Path) : Call (Except Error Unit) :=
  (removeFile path).bind fun r => .ret (removed r)

/-- What has come of the link. -/
def linked : Except Errno Unit → Except Error Bool
  | .ok () => .ok true
  | .error .alreadyExists => .ok false
  | .error _ => .error .unavailable

def createAt (path : Path) (bytes : Bytes) : Call (Except Error Bool) :=
  (writeTmp path bytes).bind fun r =>
    match r with
    | .error _ => .ret (.error .unavailable)
    | .ok tmp =>
      (hardLink tmp path).bind fun result =>
        (removeFile tmp).bind fun _ => .ret (linked result)

/-- An operation on the path of its key, which must have one. -/
def keyed {α : Type} (key : Name) (f : Path → Call (Except Error α)) : Call (Except Error α) :=
  match pathFor key with
  | none => .ret (.error .unavailable)
  | some path => f path

def get (reader : Reader) (key : Name) : Call (Except Error (Option Bytes)) :=
  keyed key (getAt reader)

def put (key : Name) (bytes : Bytes) : Call (Except Error Unit) :=
  keyed key fun path => putAt path bytes

def delete (key : Name) : Call (Except Error Unit) := keyed key deleteAt

def create (key : Name) (bytes : Bytes) : Call (Except Error Bool) :=
  keyed key fun path => createAt path bytes

/-- One entry of a directory: a directory is visited, anything else is a key. What cannot be told to
be a directory is none. -/
def visitEntry (visit : Path → TryCall (List Path)) (path : Path) : TryCall (List Path) :=
  (isDir path).bind fun there => if there then visit path else .ret (.ok [path])

/-- The entries that are left. -/
def walkEntries (visit : Path → TryCall (List Path)) (dir : Path) : List Name → TryCall (List Path)
  | [] => .ret (.ok [])
  | name :: rest =>
    (visitEntry visit (name :: dir)).attempt fun found =>
      (walkEntries visit dir rest).attempt fun more => .ret (.ok (found ++ more))

/-- A directory that is missing is empty. No directory may be deeper than `depth`. -/
def walk : Nat → Path → TryCall (List Path)
  | 0, _ => .ret (.error .io)
  | depth + 1, dir =>
    (readDir dir).bind fun r =>
      match r with
      | .ok names => walkEntries (walk depth) dir names
      | .error .notFound => .ret (.ok [])
      | .error e => .ret (.error e)

/-- What a text has before its last slash. -/
def dirOf (pre : Name) : Name :=
  match pre.reverse.dropWhile (· ≠ '/') with
  | [] => []
  | _ :: before => before.reverse

/-- The directory a prefix implies. -/
def baseDir (pre : Name) : Path :=
  if (dirOf pre).isEmpty then [] else ((dirOf pre).splitOn '/').reverse

/-- A prefix whose directory is one of the store's: with `.` or `..` in it, it would be another. -/
structure Prefix where
  text : Name
  inside : dirOf text = [] ∨ (pathFor (dirOf text)).isSome = true

/-- `keys.sort()` -/
def sortKeys (keys : List Name) : List Name := keys.insertionSort (· ≤ ·)

theorem mem_sortKeys {keys : List Name} {key : Name} : key ∈ sortKeys keys ↔ key ∈ keys :=
  (List.perm_insertionSort _ keys).mem_iff

theorem sortKeys_sorted (keys : List Name) : (sortKeys keys).Pairwise (· ≤ ·) :=
  List.pairwise_insertionSort _ keys

/-- The order in which keys are found does not matter. -/
theorem sortKeys_eq_iff {keys keys' : List Name} :
    sortKeys keys = sortKeys keys' ↔ keys.Perm keys' := by
  have hperm := List.perm_insertionSort (· ≤ ·) keys
  have hperm' := List.perm_insertionSort (· ≤ ·) keys'
  constructor
  · intro h
    rw [sortKeys] at h
    exact hperm.symm.trans (h ▸ hperm')
  · intro h
    exact (hperm.trans (h.trans hperm'.symm)).eq_of_pairwise (fun a b _ _ => le_antisymm)
      (sortKeys_sorted keys) (sortKeys_sorted keys')

def list (depth : Nat) (pre : Prefix) : TryCall (List Name) :=
  (walk depth (baseDir pre.text)).attempt fun paths =>
    .ret (.ok (sortKeys ((paths.map keyOf).filter pre.text.isPrefixOf)))

end Fafo.FsStore
