import PinnedStack.Host.Process
import PinnedStack.Host.Shell.Pattern
import PinnedStack.Host.Shell.Reader.Command
import PinnedStack.Host.Signal

/-!
# Running shells

* `Session` — a shell that is running: its variables, its files and how it goes on.
* `Act` — an action of a shell, which an `Interrupt` may cut short.
* `Channel` — an open file. Descriptors that are copies share one.
-/

namespace PinnedStack.Shell

/-- Why a shell does not go on with the next command: it leaves loops or goes on with a round of
one, leaves a function, ends with its status, ends with an error (but not in a builtin that is not
special), or is killed. -/
inductive Interrupt where
  | leave (levels : Nat)
  | again (levels : Nat)
  | back
  | exit
  | failure
  | killed (signal : Nat)
deriving DecidableEq

/-- An open file. What is written to a `file` may always go to its end; what is written to a `sink`
is kept in the shell's log. -/
inductive Channel where
  | file (id offset : Nat) (append : Bool)
  | source (bytes : List UInt8)
  | directory
  | sink
  | null
  | full

structure Variable where
  name : String
  value : Option String
  exported : Bool := false
  fixed : Bool := false

/-- A shell that is running. Its log holds what was written to sinks, the latest first; `readUpTo`
is the line up to which the script has been read, `speaker` the running command as messages show it.
`pending` signals wait for their trap, `sent` ones go to the outermost shell. `jobs` were started
without waiting, the latest first, and those in `waiting` have not run yet. -/
structure Session where
  dialect : Dialect
  disk : Disk
  channels : Array Channel
  log : List (Nat × List UInt8)
  descriptors : List (Nat × Nat)
  name : String
  params : List String
  vars : List Variable
  functions : List (String × Command)
  flags : List Char
  strict : Bool
  status : Nat
  line : Nat
  readUpTo : Nat
  speaker : Option String
  mask : Nat
  loops : Nat
  calls : Nat
  traps : List (Nat × String)
  pending : List Nat
  sent : List Nat
  locals : List (List (String × Option Variable))
  jobs : List (Nat × Option Ending)
  waiting : List (Nat × Command × Session)
  lastJob : Option Nat
  taken : Nat
  script : String
  inner : Bool

abbrev Act := EStateM Interrupt Session

/-- How a command is run: whether its status is asked for by another command, so that a failure is
no error, and whether it is the last of its shell. -/
structure Context where
  tested : Bool
  last : Bool

/-- What a shell needs of what is around it: to run commands inside others, and programs. -/
structure Inner where
  run : Context → Command → Act Unit
  launch : Launch

def processNumber : Nat := 4242

namespace Session

/-! ## Variables -/

def var? (s : Session) (name : String) : Option Variable :=
  s.vars.find? (·.name == name)

def get? (s : Session) (name : String) : Option String := (s.var? name).bind (·.value)

def put (s : Session) (v : Variable) : Session :=
  { s with vars := v :: s.vars.filter (·.name != v.name) }

def remove (s : Session) (name : String) : Session :=
  { s with vars := s.vars.filter (·.name != name) }

def environment (s : Session) : List (String × String) :=
  s.vars.reverse.filterMap fun v =>
    if v.exported then v.value.map fun value => (v.name, value) else none

def has (s : Session) (flag : Char) : Bool := s.flags.contains flag

def setFlag (s : Session) (flag : Char) (on : Bool) : Session :=
  let others := s.flags.filter (· != flag)
  { s with flags := if on then others ++ [flag] else others }

/-! ## Open files -/

def channel? (s : Session) (descriptor : Nat) : Option (Nat × Channel) :=
  (s.descriptors.lookup descriptor).bind fun i => (s.channels[i]?).map fun c => (i, c)

/-- Opens a channel and says its number. -/
def open_ (s : Session) (c : Channel) : Nat × Session :=
  (s.channels.size, { s with channels := s.channels.push c })

/-- Makes a descriptor stand for an open file. -/
def connect (s : Session) (descriptor channel : Nat) : Session :=
  { s with descriptors := (descriptor, channel)
      :: s.descriptors.filter (·.1 != descriptor) }

def close (s : Session) (descriptor : Nat) : Session :=
  { s with descriptors := s.descriptors.filter (·.1 != descriptor) }

/-- Bytes with others written over them from a place on. -/
def overwritten (old : List UInt8) (offset : Nat) (bytes : List UInt8) : List UInt8 :=
  let gap := List.replicate (offset - old.length) (0 : UInt8)
  old.take offset ++ gap ++ bytes ++ old.drop (offset + bytes.length)

/-- Writes bytes to a descriptor. One that is closed swallows them. -/
def write (s : Session) (descriptor : Nat) (bytes : List UInt8) : Session :=
  match s.channel? descriptor with
  | some (i, .file id offset append) =>
      let old := (s.disk.file id).bytes
      let at_ := if append then old.length else offset
      { s with
        disk := s.disk.setBytes id (overwritten old at_ bytes)
        channels := s.channels.setIfInBounds i (.file id (at_ + bytes.length) append) }
  | some (i, .sink) => { s with log := (i, bytes) :: s.log }
  | _ => s

/-- Can bytes be written to a descriptor? -/
def writeError? (s : Session) (descriptor : Nat) : Option OsError :=
  match s.channel? descriptor with
  | none => some .badDescriptor
  | some (_, .source _) => some .badDescriptor
  | some (_, .directory) => some .badDescriptor
  | some (_, .full) => some .noSpace
  | some _ => none

/-- What is left to read of a descriptor. -/
def readable (s : Session) (descriptor : Nat) : List UInt8 :=
  match s.channel? descriptor with
  | some (_, .file id offset _) => (s.disk.file id).bytes.drop offset
  | some (_, .source bytes) => bytes
  | _ => []

/-- Why a descriptor cannot be read, if it cannot. -/
def readError? (s : Session) (descriptor : Nat) : Option OsError :=
  match s.channel? descriptor with
  | none => some .badDescriptor
  | some (_, .directory) => some .isDirectory
  | some (_, .sink) => some .badDescriptor
  | some _ => none

def isFile (s : Session) (descriptor : Nat) : Bool :=
  match s.channel? descriptor with
  | some (_, .file _ _ _) => true
  | _ => false

/-- Passes over bytes of a descriptor, so that some are left. -/
def leave (s : Session) (descriptor left : Nat) : Session :=
  match s.channel? descriptor with
  | some (i, .file id _ append) =>
      let size := (s.disk.file id).bytes.length
      { s with channels := s.channels.setIfInBounds i (.file id (size - left) append) }
  | some (i, .source bytes) =>
      let rest := bytes.drop (bytes.length - left)
      { s with channels := s.channels.setIfInBounds i (.source rest) }
  | _ => s

/-- Takes all that was written to a sink out of the log. -/
def collect (s : Session) (channel : Nat) : List UInt8 × Session :=
  let (mine, others) := s.log.partition (·.1 == channel)
  (mine.reverse.flatMap (·.2), { s with log := others })

/-- A shell with what it shares with another: the files, the processes and what was written. -/
def sharing (s other : Session) : Session :=
  { s with
    disk := { other.disk with here := s.disk.here }
    channels := other.channels
    log := other.log
    sent := other.sent
    jobs := other.jobs
    waiting := other.waiting }

/-! ## Messages -/

/-- The start of a message of the shell. -/
def messageStart (s : Session) : String :=
  let speaker := match s.speaker with
    | some command => command ++ ": "
    | none => ""
  match s.dialect with
  | .standard => s!"{s.name}: {s.line}: {speaker}"
  | .extended => s!"{s.script}: line {s.line}: {speaker}"

def complain (s : Session) (message : String) : Session :=
  s.write 2 (utf8Bytes (s.messageStart ++ message ++ "\n"))

end Session

namespace Act

def say (descriptor : Nat) (text : String) : Act Unit :=
  modify fun s => s.write descriptor (utf8Bytes text)

def warn (message : String) : Act Unit := modify fun s => s.complain message

/-- Writes a message and stops with an error. -/
def fail {α : Type} (message : String) : Act α := do
  warn message
  modify fun s => { s with status := if s.dialect = .standard then 2 else 1 }
  throw .failure

/-- Is the language the one of the standard? -/
def isStandard : Act Bool := do return (← get).dialect == .standard

def setStatus (status : Nat) : Act Unit := modify fun s => { s with status := status }

def assign (name value : String) : Act Unit := do
  let s ← get
  match s.var? name with
  | some v =>
      if v.fixed then
        if s.dialect = .standard then fail s!"{name}: is read only"
        else fail s!"{name}: readonly variable"
      else set (s.put { v with value := some value, exported := v.exported || s.has 'a' })
  | none => set (s.put { name := name, value := some value, exported := s.has 'a' })

/-- Runs an action, and goes on with another where it is cut short. -/
def recover (action : Act Unit) (handle : Interrupt → Act Unit) : Act Unit :=
  tryCatch action handle

/-- Runs an action and changes the shell after it, also where it is cut short. -/
def finish (action : Act Unit) (change : Session → Session) : Act Unit := do
  tryCatch action fun cause => do
    modify change
    throw cause
  modify change

/-- Runs an action that may stop with an error. -/
def attempt {α : Type} (action : Act α) : Act (Option α) :=
  tryCatch (do return some (← action)) fun cause =>
    match cause with
    | .failure => pure none
    | other => throw other

/-- Runs an action in a shell of its own. What shells share stays changed, all else is as before but
for the status. -/
def apart {α : Type} (action : Act α) : Act α := do
  let before ← get
  set { before with
    traps := before.traps.filter (·.2 == "")
    pending := []
    inner := true
    loops := 0 }
  let answer ← action
  modify fun after => { before.sharing after with status := after.status }
  return answer

end Act

end PinnedStack.Shell
