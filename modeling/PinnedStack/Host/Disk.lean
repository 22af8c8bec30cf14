import PinnedStack.Host.OsError
import PinnedStack.Utf8

/-!
# Files and directories

* `Disk` — what lies where, the contents of files, and the working directory.
* `Disk.locate` — the place that a path leads to, through symbolic links.
* `Disk.read`, `Disk.write`, `Disk.open?`, `Disk.unlink`, `Disk.rename` and others — requests by
  path.
* `Disk.install` — fills a disk. `Disk.changes` — the files that one disk has over another.
-/

namespace PinnedStack

/-- The contents of a file and its permission bits. -/
structure File where
  bytes : List UInt8
  mode : Nat
deriving DecidableEq

/-- Something in the file system that is no store of bytes: `null` swallows what is written and has
nothing to read, `full` has no room, and `descriptor` is an output or the input of the program that
asks for it. -/
inductive Device where
  | null
  | full
  | descriptor (number : Nat)
  | terminal
deriving DecidableEq

/-- What lies at a place of the file system. Some directories refuse new files; several names may
share a file. -/
inductive Entry where
  | directory (refusal : Option OsError)
  | file (id : Nat)
  | link (target : String)
  | device (device : Device)
  | program (name : String)
deriving DecidableEq

/-- A file system and the working directory. Places are given by the names on the way from the
root. Files are numbered in the order in which they were made. -/
structure Disk where
  entries : List (List String × Entry)
  files : Array File
  here : List String

namespace Disk

def find? (d : Disk) (names : List String) : Option Entry :=
  (d.entries.find? (·.1 == names)).map (·.2)

def put (d : Disk) (names : List String) (entry : Entry) : Disk :=
  { d with entries := (names, entry) :: d.entries.filter (·.1 != names) }

def erase (d : Disk) (names : List String) : Disk :=
  { d with entries := d.entries.filter (·.1 != names) }

def file (d : Disk) (id : Nat) : File := d.files[id]?.getD ⟨[], 0⟩

def setBytes (d : Disk) (id : Nat) (bytes : List UInt8) : Disk :=
  { d with files := d.files.modify id fun f => { f with bytes := bytes } }

def putFile (d : Disk) (names : List String) (file : File) : Disk :=
  { d.put names (.file d.files.size) with files := d.files.push file }

/-- The names in a directory, in the order of their bytes. -/
def children (d : Disk) (names : List String) : List String :=
  let inside := d.entries.filterMap fun (place, _) =>
    if place.length = names.length + 1 ∧ names.isPrefixOf place then place.getLast? else none
  inside.mergeSort fun a b => !(b.toUTF8.data.toList < a.toUTF8.data.toList)

/-! ## Paths -/

/-- The most bytes that a path may have. -/
def maxPath : Nat := 4095

/-- The most bytes that a name may have. -/
def maxName : Nat := 255

/-- The most symbolic links on one way. -/
def maxLinks : Nat := 40

/-- Follows the pieces of a path. A piece that is not the last has to lead to a directory; the
last may name nothing. A symbolic link is followed, but at the end only if `final` says so. -/
def walk (d : Disk) (final : Bool) (links : Nat) (names : List String) :
    List String → Except OsError (List String)
  | [] => .ok names
  | piece :: rest =>
      match d.find? names with
      | none => .error .noEntry
      | some (.directory _) =>
          if piece = "" ∨ piece = "." then walk d final links names rest
          else if piece = ".." then walk d final links names.dropLast rest
          else if piece.utf8ByteSize > maxName then .error .nameTooLong
          else
            match d.find? (names ++ [piece]) with
            | some (.link target) =>
                if rest.isEmpty ∧ !final then .ok (names ++ [piece])
                else
                  match links with
                  | 0 => .error .manyLinks
                  | left + 1 =>
                      let pieces := target.splitOn "/"
                      if target.toList.head? = some '/' then walk d final left [] (pieces ++ rest)
                      else walk d final left names (pieces ++ rest)
            | _ => walk d final links (names ++ [piece]) rest
      | some _ => .error .notDirectory
termination_by pieces => (links, pieces.length)

/-- The place at which a path starts, and its pieces. -/
def start (d : Disk) (path : String) : Except OsError (List String × List String) :=
  if path.toList.contains '\x00' then .error .zeroInPath
  else if path = "" then .error .noEntry
  else if path.utf8ByteSize > maxPath then .error .nameTooLong
  else if path.toList.head? = some '/' then .ok ([], path.splitOn "/")
  else .ok (d.here, path.splitOn "/")

/-- The place that a path leads to. All but the last name on the way have to exist. -/
def locate (d : Disk) (path : String) : Except OsError (List String) :=
  match d.start path with
  | .error e => .error e
  | .ok (names, pieces) => d.walk true maxLinks names pieces

/-- The place that a path leads to, where a symbolic link at its end is not followed. -/
def locateLink (d : Disk) (path : String) : Except OsError (List String) :=
  match d.start path with
  | .error e => .error e
  | .ok (names, pieces) => d.walk false maxLinks names pieces

/-- The place at which a path may make something new. It is taken if a name has slashes after
it, and if it is a dot or two. -/
def locateNew (d : Disk) (path : String) (taken : OsError) : Except OsError (List String) :=
  match d.locateLink path with
  | .error e => .error e
  | .ok names => if (d.find? names).isSome then .error taken else .ok names

def entry (d : Disk) (path : String) : Except OsError Entry :=
  match d.locate path with
  | .error e => .error e
  | .ok names =>
      match d.find? names with
      | none => .error .noEntry
      | some entry => .ok entry

/-- What a path leads to, which may be a symbolic link. -/
def entryLink (d : Disk) (path : String) : Except OsError Entry :=
  match d.locateLink path with
  | .error e => .error e
  | .ok names =>
      match d.find? names with
      | none => .error .noEntry
      | some entry => .ok entry

def isDirectory (d : Disk) (path : String) : Bool :=
  match d.entry path with
  | .ok (.directory _) => true
  | _ => false

/-! ## Reading and writing -/

def read (d : Disk) (path : String) : Except OsError (List UInt8) :=
  match d.entry path with
  | .error e => .error e
  | .ok (.directory _) => .error .isDirectory
  | .ok (.file id) => .ok (d.file id).bytes
  | .ok (.link _) => .error .noEntry
  | .ok (.device .terminal) => .error .noDevice
  | .ok (.device _) => .ok []
  | .ok (.program _) => .error .notText

def readText (d : Disk) (path : String) : Except OsError String :=
  match d.read path with
  | .error e => .error e
  | .ok bytes =>
      match ofUtf8? bytes with
      | some text => .ok text
      | none => .error .notText

inductive Opened where
  | file (id : Nat)
  | device (device : Device)
deriving DecidableEq

/-- The directory that a path with slashes after a name asks a name in; `none` for other paths. -/
def askedIn? (path : String) : Option String :=
  let back := path.toList.reverse
  let stem := back.dropWhile (· = '/')
  let name := stem.takeWhile (· ≠ '/')
  if back.head? ≠ some '/' ∨ name.isEmpty ∨ name = ['.'] ∨ name = ['.', '.'] then none
  else some (String.ofList (stem.drop name.length).reverse ++ ".")

/-- Opens a file for writing, and makes it with a mode if there is none. A path that ends in a
slash can only mean a directory. -/
def open? (d : Disk) (path : String) (mode : Nat) : Except OsError (Opened × Disk) :=
  match askedIn? path with
  | some above =>
      match d.locate above with
      | .error e => .error e
      | .ok _ => .error .isDirectory
  | none =>
    match d.locate path with
    | .error e => .error e
    | .ok names =>
        match d.find? names with
        | none =>
            match d.find? names.dropLast with
            | some (.directory (some e)) => .error e
            | _ => .ok (.file d.files.size, d.putFile names ⟨[], mode⟩)
        | some (.directory _) => .error .isDirectory
        | some (.file id) => .ok (.file id, d)
        | some (.link _) => .error .noEntry
        | some (.device .terminal) => .error .noDevice
        | some (.device device) => .ok (.device device, d)
        | some (.program _) => .error .accessDenied

/-- The mode of new files for which no other is asked. -/
def plainMode : Nat := 0o644

/-- Replaces the bytes of a file, or makes a new one. -/
def write (d : Disk) (path : String) (bytes : List UInt8) : Except OsError Disk :=
  match d.open? path plainMode with
  | .error e => .error e
  | .ok (.file id, next) => .ok (next.setBytes id bytes)
  | .ok (.device device, next) =>
      if device = .full ∧ !bytes.isEmpty then .error .noSpace else .ok next

/-! ## Names -/

def unlink (d : Disk) (path : String) : Except OsError Disk :=
  match d.locateLink path with
  | .error e => .error e
  | .ok names =>
      match d.find? names with
      | none => .error .noEntry
      | some (.directory _) => .error .isDirectory
      | some _ => .ok (d.erase names)

def removeDirectory (d : Disk) (path : String) : Except OsError Disk :=
  match d.locateLink path with
  | .error e => .error e
  | .ok names =>
      match d.find? names with
      | none => .error .noEntry
      | some (.directory _) =>
          if (d.children names).isEmpty then .ok (d.erase names) else .error .notEmpty
      | some _ => .error .notDirectory

def makeDirectory (d : Disk) (path : String) : Except OsError Disk :=
  match d.locateNew path .alreadyThere with
  | .error e => .error e
  | .ok names => .ok (d.put names (.directory none))

def makeLink (d : Disk) (target path : String) : Except OsError Disk :=
  match d.locateNew path .alreadyThere with
  | .error e => .error e
  | .ok names => .ok (d.put names (.link target))

def addName (d : Disk) (source path : String) : Except OsError Disk :=
  match d.entryLink source with
  | .error e => .error e
  | .ok (.directory _) => .error .notPermitted
  | .ok entry =>
      match d.locateNew path .alreadyThere with
      | .error e => .error e
      | .ok names => .ok (d.put names entry)

/-- Moves what lies at a place, with all below it, to another. -/
def movePlace (d : Disk) (source target : List String) : Disk :=
  let moved := d.entries.filterMap fun (names, entry) =>
    if source.isPrefixOf names then some (target ++ names.drop source.length, entry) else none
  let others := d.entries.filter fun (names, _) =>
    !source.isPrefixOf names && names != target
  { d with entries := moved ++ others }

/-- Renames a file or a directory. What had the new name is replaced. -/
def rename (d : Disk) (source target : String) : Except OsError Disk :=
  match d.locateLink source, d.locateLink target with
  | .error e, _ => .error e
  | _, .error e => .error e
  | .ok old, .ok new =>
      match d.find? old, d.find? new with
      | none, _ => .error .noEntry
      | some (.directory _), some (.directory _) =>
          if (d.children new).isEmpty then .ok (d.movePlace old new) else .error .notEmpty
      | some (.directory _), some _ => .error .notDirectory
      | some (.directory _), none =>
          if old.isPrefixOf new then .error .invalid else .ok (d.movePlace old new)
      | some _, some (.directory _) => .error .isDirectory
      | some (.file a), some (.file b) => if a = b then .ok d else .ok (d.movePlace old new)
      | some _, _ => .ok (d.movePlace old new)

/-- The permission bits of what a path leads to. -/
def mode (d : Disk) (path : String) : Except OsError Nat :=
  match d.entry path with
  | .error e => .error e
  | .ok (.file id) => .ok (d.file id).mode
  | .ok (.device _) => .ok 0o666
  | .ok _ => .ok 0o755

def isRunnable (d : Disk) (path : String) : Bool :=
  match d.entry path with
  | .ok (.file id) => (d.file id).mode &&& 0o111 ≠ 0
  | .ok (.program _) => true
  | _ => false

/-- Sets the permission bits of a file. -/
def setMode (d : Disk) (path : String) (mode : Nat) : Except OsError Disk :=
  match d.entry path with
  | .error e => .error e
  | .ok (.file id) =>
      .ok { d with files := d.files.modify id fun f => { f with mode := mode } }
  | .ok _ => .ok d

/-- Makes a directory the working directory. -/
def enter (d : Disk) (path : String) : Except OsError Disk :=
  match d.locate path with
  | .error e => .error e
  | .ok names =>
      match d.find? names with
      | none => .error .noEntry
      | some (.directory _) => .ok { d with here := names }
      | some _ => .error .notDirectory

/-- The path of a place from the root. -/
def absolute (names : List String) : String := "/" ++ String.intercalate "/" names

/-! ## Whole disks -/

/-- The place that a path names, whatever exists. -/
def placeOf (d : Disk) (path : String) : List String :=
  let start := if path.toList.head? = some '/' then [] else d.here
  (path.splitOn "/").foldl
    (fun names piece =>
      if piece = "" ∨ piece = "." then names
      else if piece = ".." then names.dropLast
      else names ++ [piece])
    start

/-- Makes all directories on the way to the place that a path names. -/
def prepare (d : Disk) (path : String) : Disk :=
  let names := d.placeOf path
  ((List.range names.length).map names.take).foldl
    (fun d up => if (d.find? up).isSome then d else d.put up (.directory none)) d

/-- Puts something at the place that a path names, with all directories on the way. -/
def install (d : Disk) (path : String) (entry : Entry) : Disk :=
  (d.prepare path).put (d.placeOf path) entry

/-- Puts a file at the place that a path names. It may be run if it names its interpreter. -/
def installFile (d : Disk) (path : String) (bytes : List UInt8) : Disk :=
  let mode := if (utf8Bytes "#!").isPrefixOf bytes then 0o755 else plainMode
  (d.prepare path).putFile (d.placeOf path) ⟨bytes, mode⟩

def allFiles (d : Disk) : List (List String × File) :=
  d.entries.filterMap fun (names, entry) =>
    match entry with
    | .file id => some (names, d.file id)
    | .link _ =>
        match d.entry (absolute names) with
        | .ok (.file id) => some (names, d.file id)
        | _ => none
    | _ => none

/-- The files that are new or have other bytes. -/
def changes (before after : Disk) : List (List String × File) :=
  let old := before.allFiles
  after.allFiles.filter fun (names, file) =>
    match old.find? (·.1 == names) with
    | some (_, was) => was.bytes != file.bytes
    | none => true

def removals (before after : Disk) : List (List String) :=
  (before.entries.map (·.1)).filter fun names => (after.find? names).isNone

/-- The path from the working directory to a place below it. -/
def pathFromHere? (d : Disk) (names : List String) : Option String :=
  if d.here.isPrefixOf names then some (String.intercalate "/" (names.drop d.here.length)) else none

end Disk

end PinnedStack
