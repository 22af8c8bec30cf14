import PinnedStack.Host.Shell.Eval

/-!
# Shells as programs

* `Interpreter.run` — the programs `sh` and `bash`: they read a script from an argument, a file or
  the input.
-/

namespace PinnedStack.Shell.Interpreter

/-- What is needed to run commands that are nested at most so deep. -/
def inner (launch : Launch) (depth : Nat) : Inner :=
  match depth with
  | 0 => { run := fun _ _ => throw .exit, launch := launch }
  | n + 1 => { run := fun c cmd => Eval.command (inner launch n) c cmd, launch := launch }

/-- How deep commands may be nested while they run. -/
def maxDepth : Nat := 100000

/-- The number of the channel that each output of a shell has at its start. -/
def outChannel : Nat := 1
def errChannel : Nat := 2

/-- A variable that programs see, from their list. -/
def imported (env : List (String × String)) : List Variable :=
  (env.filter fun (name, _) => Reader.isName name).reverse.map fun (name, value) =>
    { name := name, value := some value, exported := true }

def start (dialect : Dialect) (call : Invocation) : Session :=
  let s : Session := {
    dialect := dialect
    disk := call.disk
    channels := #[if call.refusal = some .isDirectory then .directory else .source call.input,
      .sink, .sink]
    log := []
    descriptors := (if call.refusal = some .badDescriptor then [] else [(0, 0)])
      ++ [(1, outChannel), (2, errChannel)]
    name := call.name
    params := []
    vars := imported call.env
    functions := []
    flags := []
    strict := false
    status := 0
    line := 0
    readUpTo := 1
    speaker := none
    mask := call.mask
    loops := 0
    calls := 0
    traps := []
    pending := []
    sent := []
    locals := []
    jobs := []
    waiting := []
    lastJob := none
    taken := 0
    script := call.name
    inner := false }
  let own := [("OPTIND", "1"), ("IFS", " \t\n"), ("PS1", "# "), ("PS2", "> "), ("PS4", "+ "),
    ("PPID", toString (processNumber - 1))]
  let s := own.foldl (fun s (name, value) =>
    if name = "PS4" ∧ (s.var? name).isSome then s
    else s.put { name := name, value := some value }) s
  s.put { name := "PWD", value := some (Disk.absolute call.disk.here)
          exported := (s.var? "PWD").any (·.exported) }

/-- Options of the extended language that change nothing here. -/
def longOptions : List String :=
  ["--posix", "--norc", "--noprofile", "--noediting", "--login", "--restricted"]

/-- Refuses letters that the extended language does not know as options of a shell. -/
def checkLetters (letters : List Char) : Act Unit := do
  let s ← get
  let known := Builtin.optionLetters s.dialect ++ "closirDO".toList
  match letters.find? fun c => !known.contains c with
  | some c =>
      if s.dialect = .extended then
        let earlier := letters.takeWhile known.contains
        Act.say 2 s!"{s.name}: -{c}: invalid option\n"
        Act.setStatus (if s.has 'e' || earlier.contains 'e' then 1 else 2)
        throw .exit
  | none => pure ()

/-- Reads the options of a shell. The answer says whether it runs a text. -/
def readOptions (isText : Bool) : List String → Act (Bool × List String)
  | [] => return (isText, [])
  | arg :: rest => do
      match arg.toList with
      | ['-'] => return (isText, rest)
      | ['-', '-'] => return (isText, rest)
      | sign :: letters =>
          if sign ≠ '-' ∧ sign ≠ '+' then return (isText, arg :: rest)
          else if longOptions.contains arg && (← get).dialect == .extended then
            readOptions isText rest
          else do
            checkLetters letters
            let own := letters.filter fun c => c ≠ 'c' && c ≠ 'l'
            let named ← Builtin.setLetters (sign = '-') own
            let isText := isText || letters.contains 'c'
            match rest with
            | [] => return (isText, [])
            | name :: others =>
                if named then do
                  let s ← get
                  if s.dialect = .extended then set { s with speaker := some s.name }
                  Builtin.setNamed (sign = '-') name
                  modify fun s => { s with speaker := none }
                  readOptions isText others
                else readOptions isText (name :: others)
      | [] => return (isText, arg :: rest)

/-- Names a shell and sets its parameters. -/
def rename (name : String) (params : List String) : Act Unit :=
  modify fun s => { s with name := name, script := name, params := params }

/-- What a shell does with its arguments. -/
def main (i : Inner) (args : List String) : Act Unit := do
  let (isText, operands) ← readOptions false args
  let s ← get
  match isText, operands with
  | true, [] =>
      if s.dialect = .standard then Act.fail "-c requires an argument"
      else do
        Act.say 2 s!"{s.name}: -c: option requires an argument\n"
        Act.setStatus 2
  | true, text :: rest => do
      match rest with
      | [] => pure ()
      | name :: params => rename name params
      modify fun s => { s with readUpTo := 1 }
      Act.runText i ⟨false, true⟩ text
  | false, path :: params =>
      if s.has 's' then fromInput operands
      else
        match s.disk.read path with
        | .ok bytes => do
            rename path params
            Act.runText i ⟨false, false⟩ (ofUtf8Lossy bytes)
        | .error .isDirectory => pure ()
        | .error e => do
            let reason := if e = .noEntry ∨ e = .notDirectory then "No such file" else e.reason
            if s.dialect = .standard then do
              Act.warn s!"cannot open {path}: {reason}"
              Act.setStatus 2
            else do
              Act.say 2 s!"{s.name}: {path}: {e.reason}\n"
              Act.setStatus (if e = .noEntry then 127 else 126)
  | false, [] => fromInput []
where
  fromInput (params : List String) : Act Unit := do
    let s ← get
    let text := ofUtf8Lossy (s.readable 0)
    set { s.leave 0 0 with params := params }
    Act.runText i ⟨false, false⟩ text

/-- The programs `sh` and `bash`. -/
def run (dialect : Dialect) (launch : Launch) (call : Invocation) : Reply :=
  let i := inner launch maxDepth
  let action : Act (Option Nat) := do
    let signal? ← Act.toEnd i (main i call.args)
    let status := (← get).status
    Act.catchUp i
    Act.setStatus status
    return signal?
  let (signal?, s) := match action.run (start dialect call) with
    | .ok signal? s => (signal?, s)
    | .error _ s => (none, s)
  let writes := s.log.reverse.filterMap fun (channel, bytes) =>
    if channel = outChannel then some (Stream.out, bytes)
    else if channel = errChannel then some (Stream.err, bytes)
    else none
  let ending := match signal? with
    | some signal => Ending.signal signal
    | none => .exit (s.status % 256)
  let unread : List UInt8 := match s.channels[0]? with
    | some (Channel.source bytes) => bytes
    | _ => []
  { writes := writes
    ending := ending
    unread := unread
    disk := s.disk }

end PinnedStack.Shell.Interpreter
