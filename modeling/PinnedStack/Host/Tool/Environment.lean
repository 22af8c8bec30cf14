import PinnedStack.Host.Tool.Words

/-!
# Programs with another environment

* `Job.become` — goes on as another program.
* `Tool.environment` — the program `env`, which ends as the program that it runs.
-/

namespace PinnedStack

namespace Job

/-- Calls a program as it is called itself, with other arguments. -/
def calling (j : Job) (program : String) (args : List String) : Invocation :=
  { j.call with
    program := program
    name := program
    args := args
    input := j.input
    disk := j.disk }

/-- Goes on as another program. If it cannot be run, `failure` says what becomes of the job. -/
def become (j : Job) (launch : Launch) (call : Invocation) (failure : OsError → Job) : Reply :=
  match launch call with
  | .error e => (failure e).finish
  | .ok reply => { reply with writes := j.writes.reverse ++ reply.writes }

/-- The status of a program that cannot run another. -/
def failureStatus (e : OsError) : Nat := if e = .noEntry then 127 else 126

end Job

namespace Tool

open Options (Spec Parsed)

/-- The options of `env`, which end at the first operand. -/
def environmentSpec : Spec :=
  { Spec.of "+iu:C:0vS:" [("ignore-environment", "i"), ("unset", "u"), ("chdir", "C"),
      ("null", "0"), ("debug", "v"), ("split-string", "S")] with inOrder := true }

/-- Reads the options of `env`. A blank among them comes from the first line of a script. -/
def withEnvironmentOptions (j : Job) (work : Parsed → Reply) : Reply :=
  match Options.parse environmentSpec j.call.args with
  | .error text =>
      let j := j.complain text 125
      let j := if text.endsWith "-- ' '" then
        j.warn "use -[v]S to pass options in shebang lines" else j
      (j.emit .err (utf8Bytes s!"Try '{j.call.name} --help' for more information.\n")).finish
  | .ok p => if p.has "help" ∨ p.has "version" then j.finish else work p

/-- The words of a text between blanks; quotes keep blanks. -/
def splitWords (text : String) : List String :=
  let step (state : List String × Option (List Char) × Option Char) (c : Char) :
      List String × Option (List Char) × Option Char :=
    let (done, word, quote) := state
    let add (c : Char) : List Char := c :: word.getD []
    match quote with
    | some q => if c = q then (done, word, none) else (done, some (add c), quote)
    | none =>
        if c = '"' ∨ c = '\'' then (done, some (word.getD []), some c)
        else if c = ' ' ∨ c = '\t' ∨ c = '\n' then
          match word with
          | some w => (done ++ [String.ofList w.reverse], none, none)
          | none => state
        else (done, some (add c), none)
  let (done, word, _) := text.toList.foldl step ([], none, none)
  match word with
  | some w => done ++ [String.ofList w.reverse]
  | none => done

def environmentBinding? (word : String) : Option (String × String) :=
  let name := word.toList.takeWhile (· ≠ '=')
  match word.toList.drop name.length with
  | _ :: value => some (String.ofList name, String.ofList value)
  | [] => none

/-- The program `env`. -/
def environment (launch : Launch) (j : Job) : Reply :=
  let split := match j.call.args with
    | "-S" :: text :: rest => splitWords text ++ rest
    | first :: rest =>
        if first.startsWith "-S" then splitWords (String.ofList (first.toList.drop 2)) ++ rest
        else j.call.args
    | [] => []
  let j := { j with call := { j.call with args := split } }
  withEnvironmentOptions j fun p =>
    let operands := if p.operands.head? = some "-" then p.operands.drop 1 else p.operands
    let empty := p.has "i" ∨ p.operands.head? = some "-"
    let gone := (p.options.filter (·.1 == "u")).map (·.2)
    let kept := (if empty then [] else j.call.env).filter fun v => !gone.contains v.1
    let bindings := (operands.takeWhile fun w => (environmentBinding? w).isSome).filterMap
      environmentBinding?
    let env := bindings.foldl (fun env (name, value) =>
      if env.any (·.1 == name) then
        env.map fun v => if v.1 = name then (name, value) else v
      else env ++ [(name, value)]) kept
    let entered := match p.value? "C" with
      | some path => (j.disk.enter path).mapError fun e => (path, e)
      | none => .ok j.disk
    match operands.drop bindings.length, entered with
    | _, .error (path, e) =>
        (j.complain s!"cannot change directory to {Quote.always path}: {e.reason}" 125).finish
    | [], .ok _ =>
        let stop := if p.has "0" then "\x00" else "\n"
        (env.foldl (fun j (name, value) => j.say (name ++ "=" ++ value ++ stop)) j).finish
    | program :: args, .ok disk =>
        let call := { j.calling program args with env := env, disk := disk }
        let reply := j.become launch call fun e =>
          let j := j.complain s!"{Quote.always program}: {e.reason}" (Job.failureStatus e)
          if e = .noEntry ∧ program.toList.contains ' ' then
            j.warn "use -[v]S to pass options in shebang lines"
          else j
        { reply with disk := { reply.disk with here := j.disk.here } }

end Tool

end PinnedStack
