import PinnedStack.Host.Disk

/-!
# Running programs

* `Invocation` — how a program is called. `Reply` — what it did. `Launch` — a way to run programs.
* `Job` — a program at work, with the writes that it has made.
-/

namespace PinnedStack

inductive Ending where
  | exit (code : Nat)
  | signal (number : Nat)
deriving DecidableEq

inductive Stream where
  | out
  | err
deriving DecidableEq

/-- How a program is called: what is run (a path if it holds a slash), the name that it is told, its
arguments and variables, what it can read or why it cannot, the permissions that it denies to new
files, and the files around it. -/
structure Invocation where
  program : String
  name : String
  args : List String
  env : List (String × String)
  input : List UInt8
  fromFile : Bool
  refusal : Option OsError
  mask : Nat
  disk : Disk

/-- What a program did: its writes in order, its end, what it left unread, and the files after
it. -/
structure Reply where
  writes : List (Stream × List UInt8)
  ending : Ending
  unread : List UInt8
  disk : Disk

abbrev Launch := Invocation → Except OsError Reply

namespace Reply

/-- All that was written to one of the outputs. -/
def written (r : Reply) (stream : Stream) : List UInt8 :=
  (r.writes.filter (·.1 == stream)).flatMap (·.2)

end Reply

/-- A program at work, with what is left to read and what it has written, the latest first. -/
structure Job where
  call : Invocation
  disk : Disk
  input : List UInt8
  writes : List (Stream × List UInt8)
  status : Nat

namespace Job

/-- A program that has done nothing yet. -/
def start (call : Invocation) : Job := ⟨call, call.disk, call.input, [], 0⟩

def emit (j : Job) (stream : Stream) (bytes : List UInt8) : Job :=
  { j with writes := (stream, bytes) :: j.writes }

def say (j : Job) (text : String) : Job := j.emit .out (utf8Bytes text)

/-- Writes a line of text to the output. -/
def sayLine (j : Job) (text : String) : Job := j.say (text ++ "\n")

/-- Writes a line to the error output that starts with the program's name. -/
def warn (j : Job) (text : String) : Job :=
  j.emit .err (utf8Bytes s!"{j.call.name}: {text}\n")

/-- Warns, and fails with a status unless the program failed before. -/
def complain (j : Job) (text : String) (status : Nat) : Job :=
  let j := j.warn text
  { j with status := if j.status = 0 then status else j.status }

def withStatus (j : Job) (status : Nat) : Job := { j with status := status }

def finish (j : Job) : Reply := ⟨j.writes.reverse, .exit j.status, j.input, j.disk⟩

/-- Reads all that is left of the input. -/
def drain (j : Job) : List UInt8 × Job := (j.input, { j with input := [] })

/-- Opens a file for writing and empties it. -/
def openNew (j : Job) (path : String) : Except OsError (Disk.Opened × Job) :=
  match j.disk.open? path (0o666 - j.call.mask % 0o1000 &&& 0o666) with
  | .error e => .error e
  | .ok (.file id, disk) => .ok (.file id, { j with disk := disk.setBytes id [] })
  | .ok (.device device, disk) => .ok (.device device, { j with disk := disk })

def put (j : Job) (opened : Disk.Opened) (bytes : List UInt8) : Except OsError Job :=
  match opened with
  | .file id => .ok { j with disk := j.disk.setBytes id ((j.disk.file id).bytes ++ bytes) }
  | .device .null => .ok j
  | .device .full => if bytes.isEmpty then .ok j else .error .noSpace
  | .device .terminal => .error .noDevice
  | .device (.descriptor 2) => .ok (j.emit .err bytes)
  | .device (.descriptor _) => .ok (j.emit .out bytes)

def readInput (j : Job) : Except OsError (List UInt8) × Job :=
  match j.call.refusal with
  | some e => (.error e, j)
  | none =>
      let (bytes, j) := j.drain
      (.ok bytes, j)

/-- Reads a file; a dash and the device of the input mean the input. -/
def readPath (j : Job) (path : String) : Except OsError (List UInt8) × Job :=
  if path = "-" then j.readInput
  else
    match j.disk.entry path with
    | .ok (.device (.descriptor 0)) => j.readInput
    | _ => (j.disk.read path, j)

end Job

end PinnedStack
