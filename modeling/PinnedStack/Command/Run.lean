import PinnedStack.Command.Args
import PinnedStack.Command.Build
import PinnedStack.Compile

/-!
# The command line

* `Outcome` — the status of a run, what it wrote and the files it left.
* `Outcome.ofArgs` — what a command line does to a file system, given a way to run programs.
-/

namespace PinnedStack

structure Outcome where
  status : Nat
  out : String
  err : String
  disk : Disk

namespace Outcome

/-- A run that went well and said something. -/
def said (disk : Disk) (line : String) : Outcome := ⟨0, line ++ "\n", "", disk⟩

/-- A run that failed and said why. -/
def failed (disk : Disk) (message : String) : Outcome := ⟨1, "", message ++ "\n", disk⟩

/-- A command line that asks for nothing sensible. -/
def misuse (disk : Disk) : Outcome := ⟨2, "", usage, disk⟩
where
  usage : String := "usage: stoat [-v] (compile [options] INPUT | check INPUT)\n"

/-- Reads a source file and goes on with its text. -/
def reading (disk : Disk) (input : String) (next : String → Outcome) : Outcome :=
  match disk.readText input with
  | .ok text => next text
  | .error e => failed disk s!"Failed to read {input}: {e.message}"

/-- Runs a built program, and ends as it does. -/
def running (launch : Launch) (disk : Disk) (output : String) : Outcome :=
  let program := Path.beside output
  match launch (plainCall disk program []) with
  | .error e => failed disk s!"Failed to run {program}: {e.message}"
  | .ok reply =>
      let disk := reply.diskFrom disk
      let out := ofUtf8Lossy (reply.written .out)
      let err := ofUtf8Lossy (reply.written .err)
      match reply.ending with
      | .exit code => ⟨code, out, err, disk⟩
      | .signal _ => ⟨1, out, err ++ s!"{program} was terminated by a signal\n", disk⟩

def compiling (launch : Launch) (disk : Disk) (o : CompileOptions) : Outcome :=
  reading disk o.input fun text =>
    match compile { pinCapacity := o.pinCapacity } text o.input with
    | .error d => failed disk d.message
    | .ok asm =>
        let output := o.target
        if o.asmOnly then
          let path := Path.withExtension output "asm"
          match writeAssembly disk path asm with
          | .ok disk => said disk s!"Wrote {path}"
          | .error fault => failed disk fault.withCauses
        else
          match build launch disk ⟨o.assembler, o.linker⟩ asm output with
          | (.error fault, disk) => failed disk fault.withCauses
          | (.ok (), disk) =>
              if o.run then running launch disk output else said disk s!"Compiled {output}"

def checking (disk : Disk) (input : String) : Outcome :=
  reading disk input fun text =>
    match check {} text input with
    | .ok _ => said disk s!"{input}: ok"
    | .error d => failed disk d.message

/-- What a command line does. -/
def ofArgs (launch : Launch) (disk : Disk) (args : List String) : Outcome :=
  match Request.ofArgs? args with
  | none => misuse disk
  | some .version => said disk "stoat 0.1.0"
  | some .help => ⟨0, misuse.usage, "", disk⟩
  | some (.completions _) => ⟨0, "", "", disk⟩
  | some (.check input) => checking disk input
  | some (.compile o) => compiling launch disk o

end Outcome

end PinnedStack
