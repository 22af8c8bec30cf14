import PinnedStack.Host.Shell.State

/-!
# Commands in shells of their own

* `Act.runText` — reads and runs a text. `Act.runTraps` — runs what waits for a signal.
* `Act.subshell` — runs an action as a shell of its own would, and sets its status.
* `Act.outputOf` — the text that commands write.
-/

namespace PinnedStack.Shell

namespace Act

/-- Runs commands one after the other. -/
def runAll (i : Inner) (c : Context) : List Command → Act Unit
  | [] => pure ()
  | [command] => i.run c command
  | command :: rest => do
      i.run { c with last := false } command
      runAll i c rest

/-- Complains about a line of a text that is no script. -/
def failAt {α : Type} (line : Nat) (message : String) : Act α := do
  modify fun s => { s with line := line }
  fail s!"Syntax error: {message}"

/-- Complains about a mistake in a text that was read up to some place. -/
def failReading {α : Type} (r : Reading) (m : Mistake) : Act α := do
  if ← isStandard then failAt r.line m.wording
  else do
    let (line, messages) := m.wordings r
    modify fun s => { s with line := line }
    for message in messages do warn message
    setStatus 2
    throw .failure

/-- Runs the commands of a line. In the extended language an error ends only the line. -/
def runLine (i : Inner) (c : Context) (commands : List Command) : Act Unit := do
  let standard ← isStandard
  recover (runAll i c commands) fun cause =>
    if cause = .failure && !standard then pure () else throw cause

/-- Reads and runs what is left of a text; `fuel` bounds the number of its lines. -/
def runReading (i : Inner) (c : Context) (fuel : Nat) (r : Reading) : Act Unit :=
  match fuel with
  | 0 => pure ()
  | n + 1 => do
      let s ← get
      match r.next with
      | (.stop, _) => pure ()
      | (.mistake m, rest) => failReading rest m
      | (.commands commands, rest) => do
          set { s with readUpTo := rest.line }
          runLine i { c with last := c.last && rest.isDone } commands
          runReading i c n rest

/-- Reads and runs a text, which starts in some line. -/
def runTextAt (i : Inner) (c : Context) (line : Nat) (text : String) : Act Unit := do
  runReading i c (text.length + 2) (Reading.start (← get).dialect line text)

def runText (i : Inner) (c : Context) (text : String) : Act Unit := runTextAt i c 1 text

/-! ## Signals -/

/-- Does what a signal does to the shell: nothing, wait for its trap, or end it. -/
def receive (signal : Nat) : Act Unit := do
  match (← get).traps.lookup signal with
  | some "" => if signal = 9 ∨ signal = 19 then throw (.killed signal)
  | some _ =>
      if signal = 9 then throw (.killed signal)
      else modify fun s => { s with pending := s.pending ++ [signal] }
  | none => if Signal.isIgnored signal then pure () else throw (.killed signal)

/-- Runs the traps of the signals that wait. The status stays. -/
def runTraps (i : Inner) : Act Unit := do
  let s ← get
  unless s.pending.isEmpty do
    set { s with pending := [] }
    for signal in s.pending do
      let action := (s.traps.lookup signal).getD ""
      runText i ⟨false, false⟩ action
      setStatus s.status

/-- Runs what was left for the end of the shell. -/
def runLast (i : Inner) : Act Unit := do
  let s ← get
  match s.traps.lookup 0 with
  | none => pure ()
  | some action => do
      set { s with traps := s.traps.filter (·.1 != 0) }
      try
        runText i ⟨false, false⟩ action
        setStatus s.status
      catch cause =>
        match cause with
        | .exit => pure ()
        | .killed signal => throw (.killed signal)
        | _ => setStatus s.status

/-- Runs a shell to its end. The answer is the signal that ended it, if one did. -/
def toEnd (i : Inner) (action : Act Unit) : Act (Option Nat) := do
  try
    try action
    catch cause =>
      match cause with
      | .killed signal => throw (.killed signal)
      | _ => pure ()
    runLast i
    return none
  catch cause =>
    match cause with
    | .killed signal => return some signal
    | _ => return none

/-- Says which signal ended a process. -/
def tellSignal (signal : Nat) : Act Unit :=
  if signal = 2 ∨ signal = 13 then pure () else say 2 (Signal.wording signal ++ "\n")

/-- Takes the end of a process for the status. -/
def takeEnd (ending : Ending) : Act Unit :=
  match ending with
  | .exit code => setStatus code
  | .signal signal => do
      tellSignal signal
      setStatus (128 + signal)

/-- Runs an action as a shell of its own would, and takes over its status. -/
def subshell (i : Inner) (action : Act Unit) : Act Unit := do
  let signal? ← apart (toEnd i action)
  match signal? with
  | some signal => takeEnd (.signal signal)
  | none => pure ()
  let s ← get
  unless s.inner do
    set { s with sent := [] }
    for signal in s.sent do receive signal

/-! ## Commands that nothing waits for -/

/-- Runs a command that was started without waiting, in the shell that started it. -/
def runWaiting (i : Inner) (id : Nat) (command : Command) (starter : Session) : Act Unit := do
  let before ← get
  let (channel, s) := (starter.sharing before).open_ .null
  set s
  let signal? ← apart (toEnd i do
    modify fun s => s.connect 0 channel
    i.run ⟨false, true⟩ command)
  modify fun after =>
    let ending := match signal? with
      | some signal => Ending.signal signal
      | none => .exit after.status
    let jobs := after.jobs.map fun (n, old) => (n, if n = id then some ending else old)
    { before.sharing after with jobs := jobs }

/-- Runs those of some commands that were started without waiting and pass a test. -/
def runWaitingOf (i : Inner) (test : Session → Bool) :
    List (Nat × Command × Session) → Act Unit
  | [] => pure ()
  | (id, command, starter) :: rest => do
      if test starter then
        modify fun s => { s with waiting := s.waiting.filter (·.1 != id) }
        runWaiting i id command starter
      runWaitingOf i test rest

/-- Runs the commands that were started without waiting. A command runs as late as it can, since
the shell that started it goes on at once. -/
def catchUp (i : Inner) : Act Unit := do
  runWaitingOf i (fun _ => true) (← get).waiting

/-- Takes all that was written to a channel, once those who write to it have ended. -/
def collect (i : Inner) (channel : Nat) : Act (List UInt8) := do
  runWaitingOf i (fun starter => starter.descriptors.any (·.2 == channel)) (← get).waiting
  let (bytes, s) := (← get).collect channel
  set s
  return bytes

/-- Commands whose output is taken. Where one only opens its input, that is what is taken. -/
def takenFrom (d : Dialect) (commands : List Command) : List Command :=
  match commands with
  | [.simple line [] [] [.file 0 .read path]] =>
      if d = .extended then [.simple line [] [[.text "cat" true]] [.file 0 .read path]]
      else commands
  | _ => commands

/-- The text that commands write, without the line feeds at its end. -/
def outputOf (i : Inner) (commands : List Command) : Act String := do
  let before := (← get).status
  let (channel, s) := (← get).open_ .sink
  set s
  subshell i do
    modify fun s => s.connect 1 channel
    runAll i ⟨false, true⟩ (takenFrom (← get).dialect commands)
  let status := (← get).status
  let bytes ← collect i channel
  let s := { (← get) with status := status }
  set { s with taken := s.status, status := before }
  let chars := ((ofUtf8Lossy bytes).toList.filter (· ≠ '\x00')).reverse
  return String.ofList (chars.dropWhile (· = '\n')).reverse

end Act

end PinnedStack.Shell
