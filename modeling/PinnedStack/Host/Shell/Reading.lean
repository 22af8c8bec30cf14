import PinnedStack.Host.Shell.Syntax

/-!
# Scripts that are being read

* `Reading` — a script that is read up to some character. `Read` — a step of reading it.
* `Read.next`, `Read.span`, `Read.unexpected` — the steps that others are made of.
* `Nested` — readers of what stands inside something else.
-/

namespace PinnedStack.Shell

/-- The language of a script: that of the standard, or one with conditions between double brackets
and more. -/
inductive Dialect where
  | standard
  | extended
deriving DecidableEq

/-- A token of a script. A mark is an operator or a reserved word. -/
inductive Token where
  | stop
  | newline
  | word (word : Word)
  | mark (text : String)
  | redirection (descriptor : Option Nat) (operator : String)

/-- Why a script cannot be read: a token may not stand where it does, what was opened is not closed,
a name is none, or there is too much. -/
inductive Mistake where
  | unexpected (found : Token) (expected : Option Token)
  | unclosed (mark : Char) (line : Nat)
  | functionName
  | loopVariable (name : String)
  | excess

/-- A script that is read up to some character. `taken` counts the lines that were taken out of it
after the current one, and `back` is a token to be read again. -/
structure Reading where
  dialect : Dialect
  source : String
  rest : List Char
  line : Nat
  taken : Nat
  back : Option Token

/-! ## Messages -/

/-- The wording of a token in a message. -/
def Token.name : Token → String
  | stop => "end of file"
  | newline => "newline"
  | word _ => "word"
  | mark text => s!"\"{text}\""
  | redirection _ _ => "redirection"

def Token.text : Token → String
  | stop => ""
  | newline => "newline"
  | word w => (Word.plain? w).getD "word"
  | mark text => text
  | redirection _ operator => operator

/-- The wording of a mistake in the language of the standard. -/
def Mistake.wording : Mistake → String
  | unexpected found none => s!"{found.name} unexpected"
  | unexpected found (some expected) => s!"{found.name} unexpected (expecting {expected.name})"
  | unclosed mark _ =>
      if mark = '\x7d' then "Missing '\x7d'"
      else if mark = ')' then "Missing '))'"
      else if mark = '\x60' then "EOF in backquote substitution"
      else "Unterminated quoted string"
  | functionName => "Bad function name"
  | loopVariable _ => "Bad for loop variable"
  | excess => "script too long"

/-- The line of a mistake and its wordings in the extended language, each for a message of its
own. -/
def Mistake.wordings (m : Mistake) (r : Reading) : Nat × List String :=
  match m with
  | unexpected .stop _ => (r.line, ["syntax error: unexpected end of file"])
  | unexpected found _ =>
      let line := match found with
        | .newline => r.line - 1
        | _ => r.line
      let text := ((r.source.splitOn "\n")[line - 1]?).getD ""
      (line, [s!"syntax error near unexpected token \x60{found.text}'", s!"\x60{text}'"])
  | unclosed mark line => (line, [s!"unexpected EOF while looking for matching \x60{mark}'"])
  | loopVariable name => (r.line, [s!"\x60{name}': not a valid identifier"])
  | m => (r.line, [m.wording])

/-! ## Steps -/

/-- A step of reading a script, which may find a mistake. -/
abbrev Read := EStateM Mistake Reading

namespace Read

def peek : Read (Option Char) := do return (← get).rest.head?

def next : Read (Option Char) := do
  let r ← get
  match r.rest with
  | [] => return none
  | '\n' :: rest =>
      set { r with rest := rest, line := r.line + 1 + r.taken, taken := 0 }
      return some '\n'
  | c :: rest =>
      set { r with rest := rest }
      return some c

def skip : Read Unit := do let _ ← next

/-- Passes over backslashes that continue a line. -/
def joinLines (fuel : Nat) : Read Unit :=
  match fuel with
  | 0 => pure ()
  | n + 1 => do
      match (← get).rest with
      | '\\' :: '\n' :: _ => do skip; skip; joinLines n
      | _ => pure ()

/-- The next character of a continued line, which stays. -/
def peekJoined : Read (Option Char) := do
  joinLines (← get).rest.length
  peek

/-- Passes over characters that a test holds for. -/
def takeWhile (test : Char → Bool) (fuel : Nat) : Read (List Char) :=
  match fuel with
  | 0 => return []
  | n + 1 => do
      match ← peekJoined with
      | some c =>
          if test c then do
            skip
            return c :: (← takeWhile test n)
          else return []
      | none => return []

/-- The characters that a test holds for. -/
def span (test : Char → Bool) : Read String := do
  return String.ofList (← takeWhile test ((← get).rest.length + 1))

def isExtended : Read Bool := do return (← get).dialect == .extended

def pushBack (t : Token) : Read Unit := modify fun r => { r with back := some t }

/-- Complains about a token, perhaps with the mark that should stand there. -/
def unexpected {α : Type} (t : Token) (expected : Option String) : Read α :=
  throw (.unexpected t (expected.map .mark))

end Read

/-- What the inside of a word ends with: a double quote, a closing brace or one of some other
characters, two closing parentheses, or the end of the text. -/
inductive Inside where
  | quotes
  | braces (quoted : Bool) (ends : List Char)
  | arithmetic
  | text
deriving DecidableEq

/-- How far a list of commands goes: to the end of a line, or to a word that ends it, before which
it may or may not be empty. -/
inductive Extent where
  | line
  | block
  | optional
deriving DecidableEq

/-- Readers of what stands inside something that is being read. -/
structure Nested where
  word : Inside → Read Word
  list : Extent → Read (List Command)
  command : Read Command

end PinnedStack.Shell
