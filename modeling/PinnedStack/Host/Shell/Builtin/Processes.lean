import PinnedStack.Host.Shell.Builtin.Variables

/-!
# Commands about processes

* `Builtin.kill` — sends a signal. `Builtin.trap` — says what to do at a signal or at the end.
* `Builtin.umask` — the permissions that new files are denied.
* `Builtin.wait` — the end of a process that was started without waiting.
-/

namespace PinnedStack.Shell.Builtin

/-- Writes text to the error output as it is, and stops. -/
def stopWith {α : Type} (text : String) (status : Nat) : Act α := do
  Act.say 2 text
  Act.setStatus status
  throw .failure

/-! ## Signals -/

/-- Complains about the arguments of `kill`. -/
def killUsage {α : Type} : Act α := do
  if ← Act.isStandard then
    Act.fail ("Usage: kill [-s sigspec | -signum | -sigspec] [pid | job]... or\n"
      ++ "kill -l [exitstatus]")
  else
    stopWith ("kill: usage: kill [-s sigspec | -n signum | -sigspec] pid | jobspec ... or "
      ++ "kill -l [sigspec]\n") 2

/-- The signal that a text means. In the extended language its name may have `SIG` in front. -/
def signalOf? (d : Dialect) (text : String) : Option Nat :=
  match Signal.ofText? text with
  | some n => some n
  | none =>
      if d = .extended && (text.map Char.toUpper).startsWith "SIG" then
        Signal.ofText? (String.ofList (text.toList.drop 3))
      else none

/-- Sends a signal to a process. Only the shell itself and its own processes can be reached. -/
def send (signal : Nat) (process : String) : Act Unit := do
  let s ← get
  let bare := if process.startsWith "-" then String.ofList (process.toList.drop 1) else process
  let isNumber := (NumberText.decimal? bare).any (0 ≤ ·)
  if !isNumber && s.dialect = .extended then do
    Act.warn s!"{process}: arguments must be process or job IDs"
    Act.setStatus 1
  else
    let n ← Act.number bare
    if n = processNumber ∨ process = "0" then
      if s.inner then set { s with sent := s.sent ++ [signal] } else Act.receive signal
    else if s.waiting.any (·.1 == n) then
      unless signal = 0 ∨ Signal.isIgnored signal do
        set { s with
          waiting := s.waiting.filter (·.1 != n)
          jobs := s.jobs.map fun (id, old) => (id, if id = n then some (.signal signal) else old) }
    else do
      if s.dialect = .standard then Act.warn "No such process\n"
      else Act.warn s!"({process}) - No such process"
      Act.setStatus 1

def kill : Builtin := fun _ _ _ args => do
  if args.isEmpty then killUsage
  Act.setStatus 0
  let d := (← get).dialect
  let first := args.headD ""
  let direct := if first.startsWith "-" then
      signalOf? d (String.ofList (first.toList.drop 1)) else none
  match direct with
  | some signal =>
      if args.length < 2 then killUsage
      for process in args.drop 1 do send signal process
  | none =>
      let bare := String.ofList (first.toList.drop 1)
      let isOption := ["s", "n", "-"].contains bare
      if d = .extended && first.startsWith "-" && !isOption then
        Act.reject "" s!"{bare}: invalid signal specification" 1
      let (found, processes) ← Act.options (if d = .standard then "s:" else "s:n:") args
      let signal ← match found.getLast? with
        | none => pure 15
        | some (_, name) =>
            match signalOf? d name with
            | some n => pure n
            | none =>
                Act.reject s!"invalid signal number or name: {name}"
                  s!"{name}: invalid signal specification" 1
      if processes.isEmpty then killUsage
      for process in processes do send signal process

def isSignalNumber (text : String) : Bool :=
  text ≠ "" && text.toList.all Char.isDigit && (Signal.ofText? text).isSome

/-- The traps as a script would set them. -/
def listTraps (s : Session) : List String :=
  (List.range (Signal.count + 1)).filterMap fun n =>
    (s.traps.lookup n).map fun action =>
      let plain := Signal.list[n]?.getD ""
      let name := if s.dialect = .extended && n > 0 then "SIG" ++ plain else plain
      s!"trap -- {quoted action} {name}\n"

def trapAll (action : Option String) : List String → Act Unit
  | [] => pure ()
  | name :: rest => do
      let s ← get
      match signalOf? s.dialect name with
      | none =>
          if s.dialect = .standard then do
            Act.say 2 s!"trap: {name}: bad trap\n"
            Act.setStatus 1
          else do
            Act.warn s!"{name}: invalid signal specification"
            Act.setStatus 1
            trapAll action rest
      | some n => do
          let others := s.traps.filter (·.1 != n)
          set { s with traps := match action with
            | some text => (n, text) :: others
            | none => others }
          trapAll action rest

/-- Says what is done at signals, or lists it. -/
def trap : Builtin := fun _ _ _ args => do
  let (found, operands) ← Act.options (if ← Act.isStandard then "" else "lp") args
  Act.setStatus 0
  match operands with
  | [] => do
      let s ← get
      for line in listTraps s do Act.say 1 line
  | first :: rest =>
      if !found.isEmpty then
        let s ← get
        for line in listTraps s do Act.say 1 line
      else if rest.isEmpty ∨ isSignalNumber first then trapAll none operands
      else trapAll (if first = "-" then none else some first) rest

/-! ## Permissions -/

/-- Shows or sets the permissions that new files are denied. -/
def umask : Builtin := fun _ _ _ args => do
  let (_, operands) ← Act.options "" args
  Act.setStatus 0
  let s ← get
  match operands with
  | [] =>
      let digits := String.ofList (NumberText.digits 8 s.mask)
      let fill := String.ofList (List.replicate (4 - digits.length) '0')
      Act.say 1 (fill ++ digits ++ "\n")
  | text :: _ =>
      if text.toList.all (NumberText.isDigit 8) then
        set { s with mask := NumberText.value 8 text.toList % 0o1000 }
      else Act.reject s!"Illegal number: {text}" s!"{text}: octal number out of range" 1

/-! ## Processes without waiting -/

/-- Takes over the end of a process that was started without waiting. -/
def waitFor (text : String) : Act Unit := do
  let n ← Act.number text
  if (← get).jobs.any (·.1 == n) then takeJob n
  else do
    if (← get).dialect = .extended then Act.warn s!"pid {text} is not a child of this shell"
    Act.setStatus 127
where
  takeJob (n : Nat) : Act Unit := do
    let s ← get
    match (s.jobs.lookup n).join with
    | none => Act.setStatus 127
    | some ending => do
        Act.takeEnd ending
        let known := Ending.exit (← get).status
        modify fun s =>
          { s with jobs := s.jobs.map fun (id, old) => (id, if id = n then some known else old) }

/-- Waits for processes that were started without waiting: for some, whose ends count, or for
all. -/
def wait : Builtin := fun i _ _ args => do
  Act.catchUp i
  Act.setStatus 0
  for text in args do waitFor text
  if args.isEmpty then
    modify fun s =>
      let told (ending : Ending) : Ending :=
        match ending with
        | .signal n => .exit (128 + n)
        | .exit n => .exit n
      { s with jobs := s.jobs.map fun (id, ending) => (id, ending.map told) }

end PinnedStack.Shell.Builtin
