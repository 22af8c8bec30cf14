/-!
# File paths

* `Path.fileName?`, `Path.fileStem?` — the last name of a path, and that name without its
  extension.
* `Path.withExtension` — the path with another extension. `Path.parent` — the directory it is in.
* `Path.beside` — a path that is not looked up among the installed programs.
-/

namespace PinnedStack.Path

/-- A path without the slashes and dots at its end that name nothing, from the last character. -/
def trimmed : List Char → List Char
  | '/' :: rest => trimmed rest
  | '.' :: '/' :: rest => trimmed ('/' :: rest)
  | chars => chars

/-- The characters up to and with the last slash, and the name after it. -/
def splitName (path : String) : List Char × List Char :=
  let chars := trimmed path.toList.reverse
  ((chars.dropWhile (· ≠ '/')).reverse, (chars.takeWhile (· ≠ '/')).reverse)

/-- The last name of a path; the directories above and here have none. -/
def fileName? (path : String) : Option (List Char) :=
  match (splitName path).2 with
  | [] => none
  | ['.'] => none
  | ['.', '.'] => none
  | name => some name

/-- A name up to its last dot, which must not be its first character. -/
def stemOf (name : List Char) : List Char :=
  match (name.reverse.dropWhile (· ≠ '.')).drop 1 with
  | [] => name
  | stem => stem.reverse

/-- The last name of a path without its extension. -/
def fileStem? (path : String) : Option String :=
  (fileName? path).map fun name => String.ofList (stemOf name)

/-- What follows the last dot of a name, if there is a stem before it. -/
def extensionOf (name : List Char) : List Char := name.drop ((stemOf name).length + 1)

/-- Puts an extension after the stem of the last name, in place of the one that is there. -/
def setExtension (path extension : String) : String :=
  match fileName? path with
  | none => path
  | some name => String.ofList ((splitName path).1 ++ stemOf name) ++ "." ++ extension

/-- A path without as many characters at its end as its extension has. -/
def cutExtension (path : String) : String :=
  let size := (((fileName? path).map extensionOf).getD []).length
  String.ofList (path.toList.take (path.length - size))

/-- Replaces the extension of a path, or adds one. The old extension is cut off first, so that a
name that is two dots and an extension becomes the directory above, which takes none. -/
def withExtension (path extension : String) : String :=
  setExtension (cutExtension path) extension

/-- The directory of the last name of a path; it is empty for a name alone. -/
def parent (path : String) : String := String.ofList (splitName path).1

/-- Does a path start at the root? -/
def isAbsolute (path : String) : Bool := path.toList.head? == some '/'

/-- The parts that a path is read as: the root, a dot at its start, and its names. -/
def partCount (path : String) : Nat :=
  let pieces := (path.splitOn "/").filter (· ≠ "")
  let names := (pieces.drop 1).filter (· ≠ ".")
  let first := if isAbsolute path then 1 else 0
  match pieces with
  | [] => first
  | p :: _ => first + names.length + if p = "." ∧ isAbsolute path then 0 else 1

/-- A path of one part gets a dot in front, so that it is not looked up among the installed
programs. -/
def beside (path : String) : String :=
  if partCount path = 1 ∧ !isAbsolute path then "./" ++ path else path

end PinnedStack.Path
