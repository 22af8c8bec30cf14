import PinnedStack.Host.Shell.Reader.Token

/-!
# Reading commands

* `Reader.simple`, `Reader.compound`, `Reader.command` — read commands of all kinds.
* `Reader.list` — reads commands up to the end of a line, or to a word that ends them.
* `Reading.next` — the commands of the next line of a script.
-/

namespace PinnedStack.Shell

namespace Reader

open Read

/-- The name and the value of a word that assigns. -/
def assignment? (w : Word) : Option (String × Word) :=
  match w with
  | .text text false :: rest =>
      let name := text.toList.takeWhile isNameChar
      let plus := (text.toList.drop name.length).head? == some '+'
      match text.toList.drop (if plus then name.length + 1 else name.length) with
      | '=' :: value =>
          if name.head?.any isNameStart then
            let tail := if value.isEmpty then rest else .text (String.ofList value) false :: rest
            let own := String.ofList name
            some (own, if plus then .parameter own .value true :: tail else tail)
          else none
      | _ => none
  | _ => none

def assigns? (d : Dialect) (w : Word) : Option (String × Word) :=
  match d, w with
  | .standard, .text text false :: _ =>
      let name := text.toList.takeWhile isNameChar
      if (text.toList.drop name.length).head? = some '=' then assignment? w else none
  | _, _ => assignment? w

def isName (text : String) : Bool :=
  match text.toList with
  | [] => false
  | c :: rest => isNameStart c && rest.all isNameChar

/-- The commands that declare variables. -/
def declaring : List String := ["export", "readonly", "local"]

/-- A simple command that is being read. -/
structure Simple where
  bindings : List (String × Word)
  words : List Word
  redirections : List Redirection

/-- What has been read of a simple command, or the name of a function. -/
inductive Start where
  | simple (command : Simple)
  | function (name : String)

/-- Commands of the shell that no function may replace. -/
def specialBuiltins : List String :=
  [".", ":", "break", "continue", "eval", "exec", "exit", "export", "readonly", "return", "set",
    "shift", "times", "trap", "unset"]

/-- Reads the words of a simple command. -/
def simple (n : Nested) (fuel : Nat) (s : Simple) : Read Start :=
  match fuel with
  | 0 => return .simple s
  | left + 1 => do
      match ← token n false false with
      | .word w => do
          let d := (← get).dialect
          match if s.words.isEmpty then assigns? d w else none with
          | some b => simple n left { s with bindings := s.bindings ++ [b] }
          | none => simple n left { s with words := s.words ++ [w] }
      | .redirection d o => do
          let r ← redirection n d o
          simple n left { s with redirections := s.redirections ++ [r] }
      | .mark "(" =>
          match s.words, s.bindings, s.redirections with
          | [name], [], [] => do
              match ← token n false false with
              | .mark ")" => pure ()
              | t => unexpected t (some ")")
              let text := (Word.plain? name).getD ""
              if !(isName text || (← isExtended)) || specialBuiltins.contains text then
                throw .functionName
              else return .function text
          | _, _, _ => do
              pushBack (.mark "(")
              return .simple s
      | t => do
          pushBack t
          return .simple s

/-- Reads an expression after blanks, in which only a blank ends a word. -/
def expression (n : Nested) : Read Word := do
  blanks ((← get).rest.length + 1)
  wordTo (fun c => c = ' ' || c = '\t' || c = '\n') n ((← get).rest.length + 1) []

/-- Reads the words of a condition up to its closing brackets. Operators are words here. -/
def conditionWords (n : Nested) (fuel : Nat) : Read (List Word) :=
  match fuel with
  | 0 => throw .excess
  | left + 1 => do
      match ← token n false false with
      | .word w =>
          if Word.plain? w = some "]]" then return []
          else if Word.plain? w = some "=~" then do
            let e ← expression n
            return w :: e :: (← conditionWords n left)
          else return w :: (← conditionWords n left)
      | .mark o => return [.text o false] :: (← conditionWords n left)
      | .redirection _ o => return [.text o false] :: (← conditionWords n left)
      | .newline => conditionWords n left
      | .stop => unexpected .stop none

/-- Reads words up to the end of a line. -/
def wordsToEnd (n : Nested) (fuel : Nat) : Read (List Word) :=
  match fuel with
  | 0 => return []
  | left + 1 => do
      match ← token n false false with
      | .word w => return w :: (← wordsToEnd n left)
      | .newline => return []
      | .mark ";" => return []
      | t => unexpected t none

def body (n : Nested) : Read (List Command) := do
  let commands ← n.list .block
  expect n "done" false
  return commands

/-- Reads a loop over words, after its first word. -/
def forLoop (n : Nested) (line : Nat) : Read Command := do
  match ← token n false false with
  | .word w => do
      let name := (Word.plain? w).getD ""
      if !isName name then throw (.loopVariable name)
      let words ← do
        match ← token n true true with
        | .mark "in" => pure (some (← wordsToEnd n ((← get).rest.length + 1)))
        | .mark ";" => pure none
        | t => do
            pushBack t
            pure none
      expect n "do" true
      return .each line name words (← body n)
  | t => if ← isExtended then unexpected t none else throw (.loopVariable t.text)

/-- Reads the patterns of a branch up to the parenthesis. -/
def patterns (n : Nested) (fuel : Nat) : Read (List Word) :=
  match fuel with
  | 0 => return []
  | left + 1 => do
      let w ← do
        match ← token n false false with
        | .word w => pure w
        | t => unexpected t none
      match ← token n false false with
      | .mark "|" => return w :: (← patterns n left)
      | .mark ")" => return [w]
      | t => unexpected t (some ")")

/-- Reads the branches of a selection. -/
def branches (n : Nested) (fuel : Nat) : Read (List (List Word × List Command)) :=
  match fuel with
  | 0 => return []
  | left + 1 => do
      match ← token n true true with
      | .mark "esac" => return []
      | t => do
          let known := reserved (← get).dialect
          match t with
          | .mark "(" => pure ()
          | .mark text =>
              pushBack (if known.contains text then .word [.text text false] else t)
          | t => pushBack t
          let found ← patterns n left
          let commands ← n.list .optional
          match ← token n true true with
          | .mark ";;" => return (found, commands) :: (← branches n left)
          | .mark "esac" => return [(found, commands)]
          | t => unexpected t (some ";;")

/-- Reads a selection, after its first word. -/
def selection (n : Nested) (line : Nat) : Read Command := do
  match ← token n false false with
  | .word w => do
      expect n "in" true
      return .select line w (← branches n ((← get).rest.length + 1))
  | t => throw (.unexpected t (some (.word [])))

/-- Reads the branches of a choice after its test. -/
def choice (n : Nested) (fuel : Nat) : Read Command :=
  match fuel with
  | 0 => throw .excess
  | left + 1 => do
      let test ← n.list .block
      expect n "then" false
      let yes ← n.list .block
      match ← token n true false with
      | .mark "elif" => return .choice test yes [← choice n left]
      | .mark "else" => do
          let no ← n.list .block
          expect n "fi" false
          return .choice test yes no
      | .mark "fi" => return .choice test yes []
      | t => unexpected t (some "fi")

/-- Reads a command that holds commands, and says which token starts it. -/
def compound (n : Nested) (line : Nat) (start : String) : Read (Option Command) := do
  match start with
  | "if" => return some (← choice n ((← get).rest.length + 1))
  | "while" => do
      let test ← n.list .block
      expect n "do" false
      return some (.loop false test (← body n))
  | "until" => do
      let test ← n.list .block
      expect n "do" false
      return some (.loop true test (← body n))
  | "for" => return some (← forLoop n line)
  | "case" => return some (← selection n line)
  | "(" => do
      if (← isExtended) && (← peek) == some '(' then do
        skip
        return some (.compute line (← n.word .arithmetic))
      else do
        let commands ← n.list .block
        expect n ")" false
        return some (.subshell line commands)
  | "\x7b" => do
      let commands ← n.list .block
      expect n "\x7d" false
      return some (.group commands)
  | "[[" => return some (.condition line (← conditionWords n ((← get).rest.length + 1)))
  | _ => return none

def command (n : Nested) : Read Command := do
  let t ← token n true false
  let line := (← get).line
  let isSimple := match t with
    | .word _ => true
    | .redirection _ _ => true
    | _ => false
  if isSimple then do
    pushBack t
    match ← simple n ((← get).rest.length + 2) ⟨[], [], []⟩ with
    | .simple s => return .simple line s.bindings s.words s.redirections
    | .function name => do
        let t ← token n true true
        pushBack t
        return .function name (← n.command)
  else
    match t with
    | .mark "function" => do
        match ← token n false false with
        | .word w => do
            match ← token n true true with
            | .mark "(" => expect n ")" false
            | t => pushBack t
            let t ← token n true true
            pushBack t
            return .function ((Word.plain? w).getD "") (← n.command)
        | t => unexpected t none
    | .mark start => do
        match ← compound n line start with
        | none => unexpected t none
        | some c => do
            let rs ← redirections n ((← get).rest.length + 1)
            return if rs.isEmpty then c else .redirected line c rs
    | t => unexpected t none

/-- Reads the commands of a pipeline after the first. -/
def piped (n : Nested) (fuel : Nat) : Read (List Command) :=
  match fuel with
  | 0 => return []
  | left + 1 => do
      match ← token n true false with
      | .mark "|" => do
          let t ← token n true true
          pushBack t
          let c ← command n
          return c :: (← piped n left)
      | t => do
          pushBack t
          return []

def pipeline (n : Nested) : Read Command := do
  let t ← token n true false
  let isDenied := match t with
    | .mark "!" => true
    | _ => false
  unless isDenied do pushBack t
  let first ← command n
  let more ← piped n ((← get).rest.length + 1)
  let whole := if more.isEmpty then first else .pipeline (first :: more)
  return if isDenied then .denied whole else whole

def joined (n : Nested) (fuel : Nat) (before : Command) : Read Command :=
  match fuel with
  | 0 => return before
  | left + 1 => do
      let t ← token n true false
      let link? : Option Link := match t with
        | .mark "&&" => some .onSuccess
        | .mark "||" => some .onFailure
        | _ => none
      match link? with
      | none => do
          pushBack t
          return before
      | some link => do
          let t ← token n true true
          pushBack t
          let next ← pipeline n
          joined n left (.joined link before next)

def andOr (n : Nested) : Read Command := do
  let first ← pipeline n
  joined n ((← get).rest.length + 2) first

/-- Does a token end a list of commands? -/
def endsList : Token → Bool
  | .stop => true
  | .mark text =>
      [")", ";;", "\x60", "do", "done", "elif", "else", "esac", "fi", "then", "\x7d"].contains text
  | _ => false

/-- Reads a list of commands; those read so far are given. -/
def list (n : Nested) (extent : Extent) (fuel : Nat) (acc : List Command) :
    Read (List Command) :=
  match fuel with
  | 0 => return acc
  | left + 1 => do
      match ← token n true (extent ≠ .line) with
      | .newline => return acc
      | .stop => do
          pushBack .stop
          return acc
      | t => do
          pushBack t
          let mayEnd := extent = .optional || (extent = .block && !acc.isEmpty)
          if mayEnd && endsList t then return acc
          else do
            let c ← andOr n
            let t ← token n false false
            let c := match t with
              | .mark "&" => .background c
              | _ => c
            match t with
            | .newline => do
                pushBack t
                list n extent left (acc ++ [c])
            | .stop => do
                pushBack t
                list n extent left (acc ++ [c])
            | .mark "&" => list n extent left (acc ++ [c])
            | .mark ";" => list n extent left (acc ++ [c])
            | t =>
                if extent = .line then unexpected t none
                else do
                  pushBack t
                  return acc ++ [c]

/-- Readers of what is nested at most so deep. -/
def nested (depth : Nat) : Nested :=
  match depth with
  | 0 =>
      { word := fun _ => throw .excess
        list := fun _ => throw .excess
        command := throw .excess }
  | d + 1 =>
      { word := fun kind => do
          let r ← get
          inside (nested d) kind r.line (r.rest.length + 2) 0 []
        list := fun extent => do
          let r ← get
          list (nested d) extent (r.rest.length + 2) []
        command := command (nested d) }

def maxDepth : Nat := 64

end Reader

namespace Reading

/-- A script from its start on, which is in some line. -/
def start (dialect : Dialect) (line : Nat) (text : String) : Reading where
  dialect := dialect
  source := text
  rest := text.toList
  line := line
  taken := 0
  back := none

inductive Next where
  | commands (commands : List Command)
  | stop
  | mistake (mistake : Mistake)

def isDone (r : Reading) : Bool :=
  match r.back with
  | some .stop => true
  | some _ => false
  | none => r.rest.isEmpty

/-- The commands of the next line of a script. -/
def next (r : Reading) : Next × Reading :=
  if r.isDone then (.stop, r)
  else
    match (Reader.nested Reader.maxDepth).list .line |>.run r with
    | .ok commands rest => (.commands commands, rest)
    | .error mistake rest => (.mistake mistake, rest)

end Reading

end PinnedStack.Shell
