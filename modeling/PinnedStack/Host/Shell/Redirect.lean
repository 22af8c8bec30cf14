import PinnedStack.Host.Shell.Expansion

/-!
# Redirections and programs

* `Act.redirect` — carries out redirections.
* `Act.call` — runs a program as a process of the shell.
-/

namespace PinnedStack.Shell.Act

/-! ## Redirections -/

/-- The wording of a refusal to open a file; `missing` is said where something on the way does not
exist. -/
def refusal (s : Session) (action missing path : String) (e : OsError) : String :=
  if s.dialect = .extended then s!"{path}: {e.reason}"
  else if e = .noEntry ∨ e = .notDirectory then s!"cannot {action} {path}: {missing}"
  else s!"cannot {action} {path}: {e.reason}"

/-- Makes a descriptor stand for a device. -/
def connectDevice (s : Session) (descriptor : Nat) (device : Device) : Except String Session :=
  let fresh (c : Channel) : Session :=
    let (channel, s) := s.open_ c
    s.connect descriptor channel
  match device with
  | .null => .ok (fresh .null)
  | .full => .ok (fresh .full)
  | .terminal => .error OsError.noDevice.reason
  | .descriptor n =>
      match s.channel? n with
      | some (channel, _) => .ok (s.connect descriptor channel)
      | none => .ok (fresh .null)

def openRead (s : Session) (descriptor : Nat) (path : String) : Except String Session :=
  let fresh (c : Channel) : Except String Session :=
    let (channel, s) := s.open_ c
    .ok (s.connect descriptor channel)
  match s.disk.entry path with
  | .error e => .error (refusal s "open" "No such file" path e)
  | .ok (.file id) => fresh (.file id 0 false)
  | .ok (.device .terminal) => .error (refusal s "open" "No such file" path .noDevice)
  | .ok (.device device) => connectDevice s descriptor device
  | .ok (.directory _) => fresh .directory
  | .ok _ => fresh (.source [])

/-- Is there a file at a path that is not to be replaced? -/
def isSpared (s : Session) (direction : Direction) (path : String) : Bool :=
  s.has 'C' && (direction == .write || direction == .outputs) &&
    match s.disk.entry path with
    | .ok (.file _) => true
    | _ => false

def openWrite (s : Session) (descriptor : Nat) (direction : Direction) (path : String) :
    Except String Session :=
  if isSpared s direction path then
    if s.dialect = .standard then .error (refusal s "create" "" path .alreadyThere)
    else .error s!"{path}: cannot overwrite existing file"
  else
    match s.disk.open? path (0o666 - (0o666 &&& s.mask)) with
    | .error e => .error (refusal s "create" "Directory nonexistent" path e)
    | .ok (.device device, disk) => connectDevice { s with disk := disk } descriptor device
    | .ok (.file id, disk) =>
        let append := direction == .append || direction == .appendOutputs
        let disk := if append || direction == .both then disk else disk.setBytes id []
        let (channel, s) := { s with disk := disk }.open_ (.file id 0 append)
        .ok (s.connect descriptor channel)

/-- Makes a descriptor a copy of another, or closes it. -/
def copyDescriptor (s : Session) (descriptor : Nat) (text : String) : Except String Session :=
  if text = "-" then .ok (s.close descriptor)
  else
    match NumberText.natural? text with
    | some n =>
        match s.channel? n with
        | some (channel, _) => .ok (s.connect descriptor channel)
        | none => .error s!"{n}: Bad file descriptor"
    | none => .error s!"{text}: ambiguous redirect"

/-- Carries out a redirection, or says why it cannot be done. -/
def redirectOne (i : Inner) : Redirection → Act (Except String Unit)
  | .here descriptor w => do
      let text ← text i w
      let (channel, s) := (← get).open_ (.source (utf8Bytes text))
      set (s.connect descriptor channel)
      return .ok ()
  | .file descriptor direction w => do
      let path ← text i w
      let s ← get
      let isCopy := direction == .copyIn || direction == .copyOut
      let isDigit := path.length == 1 && path.toList.all Char.isDigit
      if isCopy && s.dialect == .standard && path ≠ "-" && !isDigit then
        failAt s.readUpTo "Bad fd number"
      else
        let both := direction == .outputs || direction == .appendOutputs
        let result :=
          if isCopy then copyDescriptor s descriptor path
          else if direction == .read then openRead s descriptor path
          else openWrite s descriptor direction path
        match result with
        | .error message => return .error message
        | .ok s =>
            set (if both then (copyDescriptor s 2 "1").toOption.getD s else s)
            return .ok ()

/-- Carries out redirections. Complains about the first that cannot be done and leaves out the
others. -/
def redirect (i : Inner) : List Redirection → Act Bool
  | [] => return true
  | r :: rest => do
      match ← redirectOne i r with
      | .ok () => redirect i rest
      | .error message => do
          warn message
          setStatus (if ← isStandard then 2 else 1)
          return false

/-! ## Programs -/

/-- The status of a program that cannot write. -/
def writeFailureStatus (name : String) : Nat :=
  match ((name.splitOn "/").getLast?).getD "" with
  | "ls" | "grep" => 2
  | "env" => 125
  | _ => 1

/-- Writes what a program wrote to the descriptors of the shell. An output that takes nothing makes
the program fail. -/
def absorb (name : String) (reply : Reply) : Act Ending := do
  let error? := (← get).writeError? 1
  for (stream, bytes) in reply.writes do
    match stream with
    | .err => modify fun s => s.write 2 bytes
    | .out => if error?.isNone then modify fun s => s.write 1 bytes
  match if (reply.written .out).isEmpty then none else error? with
  | none => return reply.ending
  | some e => do
      say 2 s!"{name}: write error: {e.reason}\n"
      return .exit (writeFailureStatus name)

/-- Runs a program as a process of the shell: its path, the name that it is told, its arguments and
variables that only it sees. -/
def call (i : Inner) (path name : String) (args : List String) : Act (Except OsError Ending) := do
  let s ← get
  let input := s.readable 0
  let invocation : Invocation := {
    program := path
    name := name
    args := args
    env := s.environment
    input := input
    fromFile := s.isFile 0
    refusal := s.readError? 0
    mask := s.mask
    disk := s.disk }
  match i.launch invocation with
  | .error e => return .error e
  | .ok reply => do
      let s := { s with disk := { reply.disk with here := s.disk.here } }
      set (if reply.unread.length = input.length then s else s.leave 0 reply.unread.length)
      return .ok (← absorb name reply)

/-- The path of a program that a name means: of all directories for programs, the first that
holds it counts. -/
def pathOf? (s : Session) (name : String) : Except OsError String :=
  if name.toList.contains '/' then .ok name
  else
    let directories := ((s.get? "PATH").getD "").splitOn ":"
    let places := directories.map fun directory =>
      if directory = "" then name else directory ++ "/" ++ name
    match places.find? s.disk.isRunnable with
    | some path => .ok path
    | none =>
        let isThere (path : String) : Bool := (s.disk.entry path).toBool
        if places.any isThere then .error .accessDenied else .error .noEntry

end PinnedStack.Shell.Act
