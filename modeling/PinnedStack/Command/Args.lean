import PinnedStack.Command.Path
import PinnedStack.Supply

/-!
# Command-line arguments

* `CompileOptions`, `Request` — what a command line asks for.
* `Request.paths` — the files that it is about.
* `Request.ofArgs?` — reads the arguments; `none` is a misuse. Options come in any order, a value
  follows its option or is attached to it, and after `--` nothing is an option. The first misuse or
  question for help or the version decides.
-/

namespace PinnedStack

/-- What `compile` is asked to do. `asmOnly` stops once the assembly text is written; `run` runs the
executable and ends with its status. -/
structure CompileOptions where
  input : String
  output : Option String
  asmOnly : Bool
  run : Bool
  pinCapacity : Nat
  assembler : String
  linker : String
deriving DecidableEq

/-- The executable that is made. -/
def CompileOptions.target (o : CompileOptions) : String :=
  o.output.getD ((Path.fileStem? o.input).getD o.input)

inductive Request where
  | compile (options : CompileOptions)
  | check (input : String)
  | completions (shell : String)
  | help
  | version
deriving DecidableEq

namespace Args

inductive Flag where
  | verbose
  | help
  | version
  | output
  | asmOnly
  | run
  | pinCapacity
  | assembler
  | linker
deriving DecidableEq

/-- Does an option take a value? -/
def Flag.hasValue : Flag → Bool
  | output => true
  | pinCapacity => true
  | assembler => true
  | linker => true
  | _ => false

/-- May an option be given more than once? -/
def Flag.repeats : Flag → Bool
  | verbose => true
  | _ => false

/-- A part of the command line with options of its own. -/
inductive Level where
  | top
  | compile
  | check
  | completions
deriving DecidableEq

/-- The long options of a level. -/
def Level.long : Level → List (String × Flag)
  | top => [("verbose", .verbose), ("help", .help), ("version", .version)]
  | compile =>
      [("verbose", .verbose), ("help", .help), ("output", .output), ("asm-only", .asmOnly),
        ("run", .run), ("pin-capacity", .pinCapacity), ("assembler", .assembler),
        ("linker", .linker)]
  | _ => [("verbose", .verbose), ("help", .help)]

/-- The one-letter options of a level. -/
def Level.short : Level → List (Char × Flag)
  | top => [('v', .verbose), ('h', .help), ('V', .version)]
  | compile => [('v', .verbose), ('h', .help), ('o', .output)]
  | _ => [('v', .verbose), ('h', .help)]

/-- Why reading stops: the arguments are misused, or a request is answered at once, whatever
follows. -/
inductive Halt where
  | misuse
  | answered (request : Request)

/-- The options of a level with their values, in order, and its operands. -/
structure Parsed where
  flags : List (Flag × String)
  operands : List String

namespace Parsed

def has (p : Parsed) (flag : Flag) : Bool := p.flags.any (·.1 == flag)

def value? (p : Parsed) (flag : Flag) : Option String :=
  (p.flags.find? (·.1 == flag)).map (·.2)

end Parsed

/-- The largest number that a size may be. -/
def maxSize : Nat := UInt64.size - 1

/-- A number of words: digits after an optional plus. -/
def size? (text : String) : Option Nat :=
  let digits := match text.toList with
    | '+' :: rest => rest
    | chars => chars
  if digits.isEmpty ∨ !digits.all Char.isDigit then none
  else
    let n := digits.foldl (fun n c => n * 10 + (c.toNat - '0'.toNat)) 0
    if n ≤ maxSize then some n else none

/-- The shells that completion scripts are known for. -/
def completionShells : List String := ["bash", "elvish", "fish", "powershell", "zsh"]

/-- May an option have a value? -/
def Flag.accepts (flag : Flag) (value : String) : Bool :=
  match flag with
  | output => value != ""
  | pinCapacity => (size? value).isSome
  | _ => true

/-- Takes an option. Help and the version are answered at once. -/
def take (p : Parsed) (flag : Flag) (value : String) : Except Halt Parsed :=
  match flag with
  | .help => .error (.answered .help)
  | .version => .error (.answered .version)
  | _ =>
      if (p.has flag && !flag.repeats) || !flag.accepts value then .error .misuse
      else .ok { p with flags := p.flags ++ [(flag, value)] }

/-- Takes an operand. Every level has at most one, which is no empty text. -/
def takeOperand (level : Level) (p : Parsed) (text : String) : Except Halt Parsed :=
  let isKnown := level != .completions || completionShells.contains text
  if p.operands.isEmpty && text != "" && isKnown then
    .ok { p with operands := [text] }
  else .error .misuse

/-- Takes the options that letters after a dash stand for. The answer names one at the end that
still needs a value. -/
def takeLetters (level : Level) (p : Parsed) : List Char → Except Halt (Parsed × Option Flag)
  | [] => .ok (p, none)
  | c :: rest =>
      match (level.short.find? (·.1 == c)).map (·.2) with
      | none => .error .misuse
      | some flag =>
          if flag.hasValue then
            match rest with
            | [] => .ok (p, some flag)
            | '=' :: value => (take p flag (String.ofList value)).map fun p => (p, none)
            | value => (take p flag (String.ofList value)).map fun p => (p, none)
          else
            match take p flag "" with
            | .error halt => .error halt
            | .ok p => takeLetters level p rest

/-- Takes the option that a name after two dashes stands for. The answer names it if it still needs
a value. -/
def takeName (level : Level) (p : Parsed) (chars : List Char) :
    Except Halt (Parsed × Option Flag) :=
  let name := String.ofList (chars.takeWhile (· ≠ '='))
  match (level.long.find? (·.1 == name)).map (·.2), chars.dropWhile (· ≠ '=') with
  | none, _ => .error .misuse
  | some flag, [] =>
      if flag.hasValue then .ok (p, some flag) else (take p flag "").map fun p => (p, none)
  | some flag, _ :: value =>
      if flag.hasValue then (take p flag (String.ofList value)).map fun p => (p, none)
      else .error .misuse

inductive Piece where
  | letters (chars : List Char)
  | name (chars : List Char)
  | operand
  | separator

/-- What an argument is; a dash alone is an operand. -/
def Piece.of (arg : String) : Piece :=
  match arg.toList with
  | ['-', '-'] => .separator
  | '-' :: '-' :: chars => .name chars
  | '-' :: c :: chars => .letters (c :: chars)
  | _ => .operand

/-- Takes the options of an argument. -/
def takePiece (level : Level) (p : Parsed) : Piece → Except Halt (Parsed × Option Flag)
  | .letters chars => takeLetters level p chars
  | .name chars => takeName level p chars
  | _ => .ok (p, none)

/-- Reads the arguments of a level; `awaiting` is an option that lacks its value, and `plain` says
that the options have ended. -/
def parse (level : Level) (p : Parsed) (awaiting : Option Flag) (plain : Bool) :
    List String → Except Halt Parsed
  | [] => if awaiting.isSome then .error .misuse else .ok p
  | arg :: rest =>
      match awaiting, if plain then .operand else Piece.of arg with
      | some flag, .operand =>
          match take p flag arg with
          | .error halt => .error halt
          | .ok p => parse level p none plain rest
      | some _, _ => .error .misuse
      | none, .separator => parse level p none true rest
      | none, .operand =>
          match takeOperand level p arg with
          | .error halt => .error halt
          | .ok p => parse level p none plain rest
      | none, piece =>
          match takePiece level p piece with
          | .error halt => .error halt
          | .ok (p, awaiting) => parse level p awaiting false rest

/-- The request of `compile`. -/
def compileRequest (p : Parsed) : Except Halt Request :=
  match p.operands, (p.value? .pinCapacity).getD "4096" |> size? with
  | [input], some capacity =>
      if p.has .asmOnly && p.has .run then .error .misuse
      else
        .ok (.compile {
          input := input
          output := p.value? .output
          asmOnly := p.has .asmOnly
          run := p.has .run
          pinCapacity := capacity
          assembler := (p.value? .assembler).getD "nasm"
          linker := (p.value? .linker).getD "ld" })
  | _, _ => .error .misuse

/-- The request about one operand. -/
def operandRequest (request : String → Request) (p : Parsed) : Except Halt Request :=
  match p.operands with
  | [text] => .ok (request text)
  | _ => .error .misuse

def subcommands : List String := ["compile", "check", "completions", "help"]

def subcommand (name : String) (args : List String) : Except Halt Request :=
  let read (level : Level) (ask : Parsed → Except Halt Request) : Except Halt Request :=
    match parse level ⟨[], []⟩ none false args with
    | .error halt => .error halt
    | .ok p => ask p
  match name with
  | "compile" => read .compile compileRequest
  | "check" => read .check (operandRequest .check)
  | "completions" => read .completions (operandRequest .completions)
  | "help" =>
      match args with
      | [] => .ok .help
      | [topic] => if subcommands.contains topic then .ok .help else .error .misuse
      | _ => .error .misuse
  | _ => .error .misuse

/-- Reads the arguments in front of the subcommand, and the subcommand. -/
def top (p : Parsed) : List String → Except Halt Request
  | [] => .error .misuse
  | arg :: rest =>
      match Piece.of arg with
      | .separator => .error .misuse
      | .operand => subcommand arg rest
      | piece =>
          match takePiece .top p piece with
          | .error halt => .error halt
          | .ok (p, _) => top p rest

end Args

namespace Request

/-- What a command line asks for; `none` is a misuse. -/
def ofArgs? (args : List String) : Option Request :=
  match Args.top ⟨[], []⟩ args with
  | .ok request => some request
  | .error (.answered request) => some request
  | .error .misuse => none

/-- The paths that a request may read or write, with the directory that files are made in. -/
def paths : Request → List String
  | compile o =>
      [o.input, Path.parent o.target, o.target, Path.withExtension o.target "asm",
        Path.withExtension o.target "o"]
        ++ [o.assembler, o.linker].filter fun tool => tool.toList.contains '/'
  | check input => [input]
  | completions _ => []
  | help => []
  | version => []

end Request

end PinnedStack
