import PinnedStack.Host.Shell.Expansion
import PinnedStack.Host.Tool.Options

/-!
# Commands of the shell itself

* `Builtin` — a command of the shell: an action on its arguments.
* `Act.options` — reads letters after dashes. `Act.number` — reads a number that is no negative one.
* `Builtin.exit`, `Builtin.leaveLoops`, `Builtin.back`, `Builtin.shift` — how a script goes on.
-/

namespace PinnedStack.Shell

/-- A command of the shell, given its name and its arguments. -/
abbrev Builtin := Inner → Context → String → List String → Act Unit

namespace Act

/-- Stops a command with a message, which may differ between the languages. -/
def reject {α : Type} (standard extended : String) (status : Nat) : Act α := do
  if ← isStandard then fail standard
  else do
    warn extended
    setStatus status
    throw .failure

/-- Reads options: letters after a dash, with a colon after those that take a value. -/
def options (letters : String) (args : List String) :
    Act (List (Char × String) × List String) := do
  match go (Options.lettersOf letters.toList) args none with
  | .ok found => return found
  | .error message => reject message (message.replace "Illegal option " "" ++ ": invalid option") 2
where
  go (known : List (Char × Options.Arity)) :
      List String → Option Char → Except String (List (Char × String) × List String)
    | [], none => .ok ([], [])
    | [], some c => .error s!"No arg for -{c} option"
    | arg :: rest, some c =>
        (go known rest none).map fun (found, operands) => ((c, arg) :: found, operands)
    | arg :: rest, none =>
        match arg.toList with
        | ['-', '-'] => .ok ([], rest)
        | '-' :: c :: more =>
            match cluster known (c :: more) with
            | .error message => .error message
            | .ok (found, awaiting) =>
                (go known rest awaiting).map fun (others, operands) =>
                  (found ++ others, operands)
        | _ => .ok ([], arg :: rest)
  cluster (known : List (Char × Options.Arity)) :
      List Char → Except String (List (Char × String) × Option Char)
    | [] => .ok ([], none)
    | c :: rest =>
        match known.lookup c with
        | none => .error s!"Illegal option -{c}"
        | some .none =>
            (cluster known rest).map fun (found, awaiting) => ((c, "") :: found, awaiting)
        | some _ =>
            if rest.isEmpty then .ok ([], some c) else .ok ([(c, String.ofList rest)], none)

/-- The greatest number that an argument may be. -/
def maxNumber : Int := 0x7fffffff

/-- Reads a number that is no negative one. -/
def number (text : String) : Act Nat := do
  match NumberText.decimal? text with
  | some n =>
      if 0 ≤ n ∧ n ≤ maxNumber then return n.toNat else fail s!"Illegal number: {text}"
  | none => fail s!"Illegal number: {text}"

end Act

namespace Builtin

def exit : Builtin := fun _ _ _ args => do
  match args with
  | [] => pure ()
  | text :: _ =>
      if ← Act.isStandard then
        let n ← Act.number text
        Act.setStatus (n % 256)
      else
        match NumberText.decimal? text with
        | some n => Act.setStatus (n % 256).toNat
        | none => do
            Act.warn s!"{text}: numeric argument required"
            Act.setStatus 2
  throw .exit

/-- Leaves a function or a script that is read in. -/
def back : Builtin := fun _ _ _ args => do
  let s ← get
  if s.dialect = .extended && s.calls = 0 && s.script = s.name then
    Act.reject "" "can only \x60return' from a function or sourced script" 2
  match args with
  | [] => pure ()
  | text :: _ => do
      let n ← Act.number text
      Act.setStatus (if ← Act.isStandard then n else n % 256)
  throw .back

/-- Leaves loops, or goes on with their next round. -/
def leaveLoops : Builtin := fun _ _ name args => do
  let levels ← match args with
    | [] => pure 1
    | text :: _ => Act.number text
  let given := args.headD ""
  if levels = 0 then
    Act.reject s!"Illegal number: {given}" s!"{given}: loop count out of range" 1
  Act.setStatus 0
  let s ← get
  if s.loops = 0 && s.dialect = .extended then
    Act.warn "only meaningful in a \x60for', \x60while', or \x60until' loop"
  let levels := min levels s.loops
  if levels > 0 then throw (if name = "break" then .leave levels else .again levels)

/-- Takes parameters away from the front. -/
def shift : Builtin := fun _ _ _ args => do
  let count ← match args with
    | [] => pure 1
    | text :: _ => Act.number text
  let s ← get
  if count ≤ s.params.length then set { s with params := s.params.drop count, status := 0 }
  else if s.dialect = .standard then Act.fail "can't shift that many"
  else Act.setStatus 1

def nothing : Builtin := fun _ _ name _ => Act.setStatus (if name = "false" then 1 else 0)

/-- Reads and runs its arguments as a script. -/
def eval : Builtin := fun i c _ args => do
  let words := if args.head? = some "--" then args.drop 1 else args
  Act.setStatus 0
  let s ← get
  let line := if s.dialect == Dialect.standard then 1 else s.line
  Act.runTextAt i { c with last := false } line (String.intercalate " " words)

/-- Reads and runs a file. A name without a slash is looked up. -/
def dot : Builtin := fun i _ _ args => do
  let args := if args.head? = some "--" then args.drop 1 else args
  match args with
  | [] => if ← Act.isStandard then Act.setStatus 0 else Act.reject "" "filename argument required" 2
  | path :: params => do
      let s ← get
      let isPath := path.toList.contains '/'
      let places :=
        if isPath then [path]
        else
          (((s.get? "PATH").getD "").splitOn ":").map fun directory =>
            if directory = "" then path else directory ++ "/" ++ path
      let places := if s.dialect = .extended && !isPath then places ++ [path] else places
      let found := places.findSome? fun place =>
        (s.disk.read place).toOption.map fun bytes => (place, bytes)
      match found with
      | none =>
          if s.dialect = .standard then
            if isPath then Act.fail s!"cannot open {path}: No such file"
            else Act.fail s!"{path}: not found"
          else do
            set { s with speaker := none }
            Act.warn s!"{path}: No such file or directory"
            Act.setStatus 1
      | some (place, bytes) => do
          let own := s.dialect = .extended && !params.isEmpty
          let speaker := if s.dialect = .standard then some path else none
          set { s with
            status := 0
            params := if own then params else s.params
            speaker := speaker
            script := place }
          try Act.runText i ⟨false, false⟩ (ofUtf8Lossy bytes)
          catch cause =>
            match cause with
            | .back => pure ()
            | other => throw other
          modify fun after =>
            { after with params := if own then s.params else after.params, script := s.script }

end Builtin

end PinnedStack.Shell
