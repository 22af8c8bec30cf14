import PinnedStack.Command.Path
import PinnedStack.Host.Process
import PinnedStack.Host.Signal
import PinnedStack.Token.Blank

/-!
# Building executables

* `BuildFault` — what can go wrong between the assembly text and the executable.
* `build` — writes the text, assembles it and links the object. The object is removed once linking
  succeeded, and all that was written stays where a later step fails.
-/

namespace PinnedStack

/-- A failure to build: a file could not be written or a tool not started, or a tool ran and
failed. -/
inductive BuildFault where
  | io (action path : String) (cause : OsError)
  | toolFailed (tool status stderr : String)
deriving DecidableEq

namespace BuildFault

/-- The wording of a failure. -/
def message : BuildFault → String
  | io action path cause => s!"{action} {path}: {cause.message}"
  | toolFailed tool status stderr => s!"{tool} failed ({status}):\n{stderr}"

/-- The wording with the causes of a failure after it. -/
def withCauses : BuildFault → String
  | io action path cause => s!"{(io action path cause).message}: {cause.message}"
  | f => f.message

end BuildFault

/-- How messages show the end of a program. -/
def Ending.text : Ending → String
  | exit code => s!"exit status: {code}"
  | signal number =>
      match Signal.name? number with
      | some name => s!"signal: {number} (SIG{name})"
      | none => s!"signal: {number}"

/-- A text without the blanks at its ends. -/
def trimBlanks (text : String) : String :=
  let back := (text.toList.dropWhile isBlank).reverse
  String.ofList (back.dropWhile isBlank).reverse

/-- Writes assembly text. -/
def writeAssembly (d : Disk) (path asm : String) : Except BuildFault Disk :=
  match d.write path (utf8Bytes asm) with
  | .ok next => .ok next
  | .error cause => .error (.io "writing" path cause)

/-- The variables that the programs see. -/
def environment : List (String × String) :=
  [("HOME", "/root"),
    ("PATH", "/usr/local/sbin:/usr/local/bin:/usr/sbin:/usr/bin:/sbin:/bin")]

/-- How a program is called: it has nothing to read, and denies nothing of new files but writing to
others. -/
def plainCall (d : Disk) (program : String) (args : List String) : Invocation where
  program := program
  name := program
  args := args
  env := environment
  input := []
  fromFile := false
  refusal := none
  mask := 0o022
  disk := d

/-- The files after a program, seen from where it was called. -/
def Reply.diskFrom (r : Reply) (d : Disk) : Disk := { r.disk with here := d.here }

/-- Runs a tool, which has to succeed. The files it changed stay changed also where it fails. -/
def runTool (launch : Launch) (d : Disk) (tool : String) (args : List String) :
    Except BuildFault Unit × Disk :=
  match launch (plainCall d tool args) with
  | .error cause => (.error (.io "spawning" tool cause), d)
  | .ok reply =>
      let next := reply.diskFrom d
      if reply.ending = .exit 0 then (.ok (), next)
      else
        let err := trimBlanks (ofUtf8Lossy (reply.written .err))
        (.error (.toolFailed tool reply.ending.text err), next)

structure Tools where
  assembler : String
  linker : String
deriving DecidableEq

/-- Builds an executable from assembly text. -/
def build (launch : Launch) (d : Disk) (tools : Tools) (asm output : String) :
    Except BuildFault Unit × Disk :=
  let asmPath := Path.withExtension output "asm"
  let objectPath := Path.withExtension output "o"
  match writeAssembly d asmPath asm with
  | .error fault => (.error fault, d)
  | .ok d =>
      match runTool launch d tools.assembler ["-felf64", "-o", objectPath, asmPath] with
      | (.error fault, d) => (.error fault, d)
      | (.ok (), d) =>
          match runTool launch d tools.linker ["-o", output, objectPath] with
          | (.error fault, d) => (.error fault, d)
          | (.ok (), d) =>
              match d.unlink objectPath with
              | .ok last => (.ok (), last)
              | .error _ => (.ok (), d)

end PinnedStack
