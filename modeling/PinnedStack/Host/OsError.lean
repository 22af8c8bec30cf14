/-!
# Refusals of the operating system

* `OsError` — why a request is refused, `OsError.reason` — its wording and `OsError.number?` — its
  number.
* `OsError.message` — the wording with the number.
-/

namespace PinnedStack

/-- A refusal of the operating system, or of text and paths that it cannot be asked about. -/
inductive OsError where
  | notPermitted
  | noEntry
  | noDevice
  | notRunnable
  | badDescriptor
  | accessDenied
  | alreadyThere
  | notDirectory
  | isDirectory
  | invalid
  | noSpace
  | nameTooLong
  | notEmpty
  | manyLinks
  | zeroInPath
  | notText
deriving DecidableEq

namespace OsError

def reason : OsError → String
  | notPermitted => "Operation not permitted"
  | noEntry => "No such file or directory"
  | noDevice => "No such device or address"
  | notRunnable => "Exec format error"
  | badDescriptor => "Bad file descriptor"
  | accessDenied => "Permission denied"
  | alreadyThere => "File exists"
  | notDirectory => "Not a directory"
  | isDirectory => "Is a directory"
  | invalid => "Invalid argument"
  | noSpace => "No space left on device"
  | nameTooLong => "File name too long"
  | notEmpty => "Directory not empty"
  | manyLinks => "Too many levels of symbolic links"
  | zeroInPath => "file name contained an unexpected NUL byte"
  | notText => "stream did not contain valid UTF-8"

/-- The number of a refusal; what is refused before the system is asked has none. -/
def number? : OsError → Option Nat
  | notPermitted => some 1
  | noEntry => some 2
  | noDevice => some 6
  | notRunnable => some 8
  | badDescriptor => some 9
  | accessDenied => some 13
  | alreadyThere => some 17
  | notDirectory => some 20
  | isDirectory => some 21
  | invalid => some 22
  | noSpace => some 28
  | nameTooLong => some 36
  | notEmpty => some 39
  | manyLinks => some 40
  | zeroInPath => none
  | notText => none

/-- The wording of a refusal with its number. -/
def message (e : OsError) : String :=
  match e.number? with
  | some n => s!"{e.reason} (os error {n})"
  | none => e.reason

end OsError

end PinnedStack
