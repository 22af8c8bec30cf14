import PinnedStack.Host.Shell.Builtin.Output
import PinnedStack.Host.Shell.Condition
import PinnedStack.Host.Shell.Redirect

/-!
# Running commands

* `Eval.builtins` — the commands of the shell itself.
* `Eval.external` — runs a program. `Eval.invoke` — runs a function, a builtin or a program.
* `Eval.simple` — runs a simple command. `Eval.command` — runs any command.
-/

namespace PinnedStack.Shell.Eval

/-! ## Programs -/

/-- Takes over the end of a program, which may have taken the place of the shell. -/
def takeEnd (replaces : Bool) (ending : Ending) : Act Unit :=
  match ending with
  | .exit code => Act.setStatus code
  | .signal signal => if replaces then throw (.killed signal) else Act.takeEnd ending

/-- Complains about a program that cannot be run. -/
def cannotRun (name : String) (e : OsError) : Act Unit := do
  let s ← get
  let isPath := name.toList.contains '/'
  let missing := e = .noEntry ∨ e = .notDirectory
  if s.dialect = .standard then
    let reason := if missing then "not found" else e.reason
    Act.warn s!"{name}: {reason}"
    Act.setStatus (if missing ∨ !isPath then 127 else 126)
  else if !isPath && e = .noEntry then
    Act.warn s!"{name}: command not found"
    Act.setStatus 127
  else
    let reason := if s.disk.isDirectory name then OsError.isDirectory.reason
      else if e = .noEntry && s.disk.isRunnable name then "cannot execute: required file not found"
      else e.reason
    Act.warn s!"{name}: {reason}"
    Act.setStatus (if e = .noEntry then 127 else 126)

/-- Runs a program. A file without a notation of its own is a script of the shell. -/
def external (i : Inner) (replaces : Bool) (name : String) (args : List String) : Act Unit := do
  if name = "sleep" then Act.catchUp i
  let s ← get
  match Act.pathOf? s name with
  | .error e => cannotRun name e
  | .ok path =>
      match ← Act.call i path name args with
      | .ok ending => takeEnd replaces ending
      | .error .notRunnable => do
          let shell := if s.dialect = .standard then "/bin/sh" else "/bin/bash"
          match ← Act.call i shell shell (path :: args) with
          | .ok ending => takeEnd replaces ending
          | .error e => cannotRun name e
      | .error e => cannotRun name e

/-! ## Builtins that run commands -/

/-- Replaces the shell by a program; without one, its redirections stay. -/
def exec : Builtin := fun i _ _ args => do
  let args := if args.head? = some "--" then args.drop 1 else args
  match args with
  | [] => Act.setStatus 0
  | name :: rest => do
      modify fun s => { s with traps := s.traps.filter (·.2 == "") }
      let s ← get
      if s.dialect = .extended && !name.toList.contains '/' && !(Act.pathOf? s name).toBool then
        Act.warn s!"{name}: not found"
        Act.setStatus 127
      else
        if s.dialect = .extended then set { s with speaker := none }
        external i true name rest
      throw .exit

/-- The commands of the shell itself but for those that find others. -/
def builtins : List (String × Builtin) :=
  [(":", Builtin.nothing), ("true", Builtin.nothing), ("false", Builtin.nothing),
    ("exit", Builtin.exit), ("return", Builtin.back), ("break", Builtin.leaveLoops),
    ("continue", Builtin.leaveLoops), ("shift", Builtin.shift), ("eval", Builtin.eval),
    (".", Builtin.dot), ("source", Builtin.dot), ("exec", exec), ("export", Builtin.declare),
    ("readonly", Builtin.declare), ("unset", Builtin.unset), ("local", Builtin.local_),
    ("set", Builtin.setOptions), ("read", Builtin.read), ("kill", Builtin.kill),
    ("trap", Builtin.trap), ("umask", Builtin.umask), ("wait", Builtin.wait),
    ("echo", Builtin.echo), ("printf", Builtin.printf), ("test", Builtin.test),
    ("[", Builtin.test), ("cd", Builtin.changeDirectory), ("chdir", Builtin.changeDirectory),
    ("pwd", Builtin.showDirectory)]

/-- The command of a name. Only the extended language knows `source`. -/
def plain? (d : Dialect) (name : String) : Option Builtin :=
  if name = "source" ∧ d = .standard then none else builtins.lookup name

/-- The builtins that find other commands. -/
def finders : List String := ["command", "type"]

def isBuiltin (d : Dialect) (name : String) : Bool :=
  (plain? d name).isSome || finders.contains name || (d = .extended && name = "builtin")

/-- Is an error of a builtin one of the shell? -/
def isSpecial (d : Dialect) (name : String) : Bool :=
  d = .standard && (Reader.specialBuiltins.contains name || name = "local")

/-! ## Names of commands -/

/-- Says what a name means as a command. -/
def describe (verbose : Bool) (name : String) : Act Unit := do
  let s ← get
  let answer (long short : String) : Act Unit :=
    Act.say 1 (if verbose then s!"{name} is {long}\n" else short ++ "\n")
  if (Reader.reserved s.dialect).contains name then answer "a shell keyword" name
  else if s.functions.any (·.1 == name) then
    answer (if s.dialect = .standard then "a shell function" else "a function") name
  else if isBuiltin s.dialect name then
    answer (if isSpecial s.dialect name then "a special shell builtin" else "a shell builtin") name
  else
    match Act.pathOf? s name with
    | .ok path =>
        if s.disk.isRunnable path || (verbose && (s.disk.entry path).toBool) then answer path path
        else missing
    | .error _ => missing
where
  missing : Act Unit := do
    if verbose then
      if ← Act.isStandard then Act.say 1 s!"{name}: not found\n" else Act.warn s!"{name}: not found"
    Act.setStatus (if ← Act.isStandard then 127 else 1)

def callFunction (i : Inner) (c : Context) (body : Command) (args : List String) : Act Unit := do
  let s ← get
  if s.calls ≥ 1000 then Act.fail "Maximum function recursion depth (1000) reached"
  set { s with params := args, calls := s.calls + 1, loops := 0, locals := [] :: s.locals }
  let run := Act.recover (i.run { c with last := false } body) fun cause =>
    match cause with
    | .back => pure ()
    | other => throw other
  Act.finish run fun after =>
    let restored := (after.locals.headD []).foldl (fun after (name, old) =>
      match old with
      | some v => after.put v
      | none => after.remove name) after
    { restored with params := s.params, calls := s.calls, loops := s.loops, locals := s.locals }

/-- Runs a builtin. Its errors end only the command, unless it is special. -/
def runBuiltin (b : Builtin) (i : Inner) (c : Context) (special : Bool) (name : String)
    (args : List String) : Act Unit := do
  let before := (← get).speaker
  modify fun s => { s with speaker := some name }
  let run := Act.recover (b i c name args) fun cause =>
    if cause = .failure && !special then pure () else throw cause
  Act.finish run fun after => { after with speaker := before }

/-- The words after the name and the options of `command`, and whether the words are only to be
described. -/
def commandWords (args : List String) : Act (Option Bool × List String) := do
  let before := (← get).speaker
  modify fun s => { s with speaker := some "command" }
  let (found, operands) ← Act.options "pvV" args
  modify fun s => { s with speaker := before }
  return (((found.filter (·.1 != 'p')).getLast?).map (·.1 == 'V'), operands)

/-- Runs a command given by its words: a function, a builtin or a program. After `command`, of
which there are at most `fuel`, functions do not count and builtins are not special. -/
def invoke (i : Inner) (c : Context) (plain : Bool) (fuel : Nat) (words : List String) :
    Act Unit := do
  let s ← get
  match words with
  | [] => Act.setStatus 0
  | name :: args =>
      match if plain then none else s.functions.lookup name with
      | some body => callFunction i c body args
      | none =>
          match plain? s.dialect name with
          | some b => runBuiltin b i c (!plain && isSpecial s.dialect name) name args
          | none =>
              if name = "type" then
                runBuiltin (fun _ _ _ args => do
                  Act.setStatus 0
                  args.forM (describe true)) i c false name args
              else if name = "command" ∨ (name = "builtin" ∧ s.dialect = .extended) then
                match fuel with
                | 0 => Act.setStatus 0
                | n + 1 => do
                    match ← Act.attempt (commandWords args) with
                    | none => pure ()
                    | some (some verbose, names) => do
                        Act.setStatus 0
                        names.forM (describe verbose)
                    | some (none, rest) => invoke i c true n rest
              else external i (c.last && s.traps.isEmpty) name args

/-! ## Simple commands -/

/-- Expands the words of a command. After commands that declare variables, the words that assign
are not split. -/
def expandWords (i : Inner) (declares : Bool) (before : List String) :
    List Word → Act (List String)
  | [] => return before
  | w :: rest => do
      let s ← get
      let assigns := if declares then Reader.assignment? w else none
      let found ← match assigns with
        | some (name, value) => do pure [name ++ "=" ++ (← Act.assigned i value)]
        | none => Act.texts i w
      let all := before ++ found
      let declaring := match all.dropWhile (· == "command") with
        | name :: _ =>
            Reader.declaring.contains name
              && (all.head? == some "command" || !s.functions.any (·.1 == name))
              && isBuiltin s.dialect name
        | [] => false
      expandWords i declaring all rest

/-- Assigns variables of a command and says their values. -/
def bind (i : Inner) (exported : Bool) : List (String × Word) → Act (List (String × String))
  | [] => return []
  | (name, w) :: rest => do
      let value ← Act.assigned i w
      Act.assign name value
      if exported then
        modify fun s =>
          match s.var? name with
          | some v => s.put { v with exported := true }
          | none => s
      return (name, value) :: (← bind i exported rest)

/-- A text as a word of a script, between single quotes where it needs them. -/
def asWord (text : String) : String :=
  let special := " \t\n'\"\\|&;()<>!\x7b\x7d*[]?^$\x60".toList
  let isPlain := text ≠ "" && !text.startsWith "#" && !text.startsWith "~"
    && !text.toList.any special.contains
  if isPlain then text else "'" ++ text.replace "'" "'\\''" ++ "'"

/-- Shows a command before it runs. In the extended language each variable has a line. -/
def trace (channels : List (Nat × Nat)) (bindings : List (String × String))
    (words : List String) : Act Unit := do
  let s ← get
  if s.has 'x' then
    let mark := (s.get? "PS4").getD "+ "
    let isStandard := s.dialect == Dialect.standard
    let write (text : String) : String := if isStandard then text else asWord text
    let set_ := bindings.map fun (name, value) =>
      name ++ "=" ++ (if value = "" then "" else write value)
    let words := words.map write
    let lines := if isStandard then [set_ ++ words] else set_.map ([·]) ++ [words]
    let now := s.descriptors
    set { s with descriptors := channels }
    for line in lines.filter (!·.isEmpty) do
      Act.say 2 (mark ++ String.intercalate " " line ++ "\n")
    modify fun s => { s with descriptors := now }

/-- Is a command one whose variables stay? -/
def keepsVariables (s : Session) (words : List String) : Bool :=
  match words with
  | [] => true
  | name :: _ => isSpecial s.dialect name && !s.functions.any (·.1 == name)

def simple (i : Inner) (c : Context) (line : Nat) (bindings : List (String × Word))
    (words : List Word) (redirections : List Redirection) : Act Unit := do
  modify fun s => { s with line := line, taken := 0 }
  let texts ← expandWords i false [] words
  let before ← get
  let keeps := keepsVariables before texts
  let isExec := (texts.dropWhile (· == "command")).head? == some "exec"
  let restore (after : Session) : Session := { after with descriptors := before.descriptors }
  if ← Act.redirect i redirections then
    let run : Act Unit := do
      let values ← bind i (!keeps || (isExec && texts.length > 1)) bindings
      trace before.descriptors values texts
      if texts.isEmpty then modify fun s => { s with status := s.taken }
      else
        let own := invoke i c false texts.length texts
        if keeps || values.isEmpty then own
        else
          Act.finish own fun after =>
            values.foldl (fun after (name, _) =>
              match before.var? name with
              | some v => after.put v
              | none => after.remove name) after
    if isExec then run else Act.finish run restore
  else
    modify restore
    if keeps && !texts.isEmpty && before.dialect = .standard then throw .failure

/-! ## Commands that hold commands -/

/-- Runs a round of a loop, which says whether the loop goes on. The round may leave the loop, or
one around it. -/
def inLoop (round : Act Bool) : Act Bool :=
  tryCatch round fun cause =>
    match cause with
    | .leave (levels + 2) => throw (.leave (levels + 1))
    | .leave _ => return false
    | .again (levels + 2) => throw (.again (levels + 1))
    | .again _ => return true
    | other => throw other

/-- Runs rounds of a loop until one leaves it; `fuel` bounds their number. Each is given the status
after the one before. -/
def rounds (round : Nat → Act Bool) (fuel last : Nat) : Act Unit :=
  match fuel with
  | 0 => pure ()
  | n + 1 => do
      if ← inLoop (round last) then rounds round n (← get).status

def maxRounds : Nat := 1000000

def looped (loop : Act Unit) : Act Unit := do
  modify fun s => { s with loops := s.loops + 1 }
  Act.finish loop fun s => { s with loops := s.loops - 1 }

def each (name : String) (body : Act Unit) : List String → Act Unit
  | [] => pure ()
  | text :: rest => do
      let round : Act Bool := do
        Act.assign name text
        body
        return true
      if ← inLoop round then each name body rest

/-- Runs commands one after the other, each reading what the one before wrote. -/
def pipeline (i : Inner) (tested : Bool) (worst : Nat) : List Command → Act Unit
  | [] => pure ()
  | [last] => do
      Act.subshell i (i.run ⟨tested, true⟩ last)
      let s ← get
      set { s with status := if s.strict && s.status = 0 then worst else s.status }
  | first :: rest => do
      let (channel, s) := (← get).open_ .sink
      set s
      Act.subshell i do
        modify fun s => s.connect 1 channel
        i.run ⟨tested, true⟩ first
      let status := (← get).status
      let bytes ← Act.collect i channel
      let (input, s) := (← get).open_ (.source bytes)
      set (s.connect 0 input)
      pipeline i tested (if status = 0 then worst else status) rest

/-- Runs the first branch of which a pattern matches. -/
def select (i : Inner) (c : Context) (value : String) :
    List (List Word × List Command) → Act Unit
  | [] => Act.setStatus 0
  | (patterns, body) :: rest => do
      if ← anyMatches patterns then
        Act.setStatus 0
        Act.runAll i c body
      else select i c value rest
where
  anyMatches : List Word → Act Bool
    | [] => return false
    | w :: rest => do
        if Pattern.isMatch (← Act.pattern i w) value.toList then return true
        else anyMatches rest

def run (i : Inner) (c : Context) : Command → Act Unit
  | .simple line bindings words redirections => simple i c line bindings words redirections
  | .pipeline commands => do
      let before := (← get).descriptors
      Act.finish (pipeline i c.tested 0 commands) fun s => { s with descriptors := before }
  | .denied command => do
      i.run ⟨true, false⟩ command
      modify fun s => { s with status := if s.status = 0 then 1 else 0 }
  | .joined link first second => do
      i.run ⟨link ≠ .always || c.tested, false⟩ first
      let isGood := (← get).status = 0
      if link = .always ∨ (link = .onSuccess) = isGood then i.run c second
  | .background command =>
      modify fun s =>
        let id := processNumber + 1 + s.jobs.length
        { s with
          jobs := (id, none) :: s.jobs
          waiting := s.waiting ++ [(id, command, { s with waiting := [] })]
          lastJob := some id
          status := 0 }
  | .group body => Act.runAll i c body
  | .subshell line body => do
      modify fun s => { s with line := line }
      Act.subshell i (Act.runAll i ⟨c.tested, true⟩ body)
  | .choice test yes no => do
      Act.runAll i ⟨true, false⟩ test
      if (← get).status = 0 then Act.runAll i c yes
      else if no.isEmpty then Act.setStatus 0
      else Act.runAll i c no
  | .loop untilDone test body => do
      let round (last : Nat) : Act Bool := do
        Act.runAll i ⟨true, false⟩ test
        if ((← get).status = 0) = untilDone then
          Act.setStatus last
          return false
        Act.runAll i { c with last := false } body
        return true
      looped (rounds round maxRounds 0)
  | .each line name words body => do
      modify fun s => { s with line := line }
      let texts ← match words with
        | some words => Act.allTexts i words
        | none => do pure (← get).params
      Act.setStatus 0
      looped (each name (Act.runAll i { c with last := false } body) texts)
  | .select line w branches => do
      modify fun s => { s with line := line }
      select i c (← Act.text i w) branches
  | .function name body =>
      modify fun s =>
        { s with functions := (name, body) :: s.functions.filter (·.1 != name), status := 0 }
  | .redirected line command redirections => do
      modify fun s => { s with line := line }
      let before := (← get).descriptors
      let inside : Act Unit := do
        if ← Act.redirect i redirections then i.run { c with last := false } command
      Act.finish inside fun s => { s with descriptors := before }
  | .condition line words => do
      modify fun s => { s with line := line }
      match Condition.parse? words with
      | some condition => do
          let answer ← Act.attempt (condition.holds i)
          Act.setStatus (match answer with
            | some true => 0
            | some false => 1
            | none => 2)
      | none => Act.fail "syntax error in conditional expression"
  | .compute line e => do
      modify fun s => { s with line := line }
      let value ← Arith.evaluate (← Act.text i e)
      Act.setStatus (if value = 0 then 1 else 0)

/-- Is a failure of a command one of the script? -/
def isChecked : Command → Bool
  | .simple _ _ _ _ => true
  | .pipeline _ => true
  | .subshell _ _ => true
  | .condition _ _ => true
  | .compute _ _ => true
  | _ => false

/-- Runs a command, what waits for signals, and ends the shell if the command failed and failures
are errors. -/
def command (i : Inner) (c : Context) (cmd : Command) : Act Unit := do
  unless (← get).has 'n' do
    run i c cmd
    Act.runTraps i
    let s ← get
    if isChecked cmd && !c.tested && s.status ≠ 0 && s.has 'e' then throw .exit

end PinnedStack.Shell.Eval
