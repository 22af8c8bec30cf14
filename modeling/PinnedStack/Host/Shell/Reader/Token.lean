import PinnedStack.Host.Shell.Reader.Word

/-!
# Reading tokens and redirections

* `Reader.token` — the next token, where words may be reserved.
* `Reader.redirection` — a redirection, with the text in the script that it may ask for.
-/

namespace PinnedStack.Shell.Reader

open Read

/-- The operators by their characters, the longer ones first. -/
def operators (d : Dialect) : List String :=
  (if d = .extended then ["&>>", "<<<", "&>"] else [])
    ++ ["<<-", "&&", "||", ";;", "<<", ">>", "<&", ">&", "<>", ">|", "&", "|", ";", "(", ")", "<",
      ">"]

def isRedirection (operator : String) : Bool :=
  ["<", ">", "<<", ">>", "<&", ">&", "<>", ">|", "<<-", "&>", "&>>", "<<<"].contains operator

def blanks (fuel : Nat) : Read Unit :=
  match fuel with
  | 0 => pure ()
  | n + 1 => do
      match ← peekJoined with
      | some ' ' => do skip; blanks n
      | some '\t' => do skip; blanks n
      | some '#' => do
          let r ← get
          set { r with rest := r.rest.dropWhile (· ≠ '\n') }
      | _ => pure ()

def operatorAt : Read (Option String) := do
  let r ← get
  let found := (operators r.dialect).find? fun o => o.toList.isPrefixOf r.rest
  match found with
  | none => return none
  | some o => do
      set { r with rest := r.rest.drop o.length }
      return some o

def operatorToken (descriptor : Option Nat) (operator : String) : Token :=
  if isRedirection operator then .redirection descriptor operator else .mark operator

def scan (n : Nested) : Read Token := do
  blanks ((← get).rest.length + 1)
  match ← peek with
  | none => return .stop
  | some '\n' => do
      skip
      return .newline
  | some _ => do
      match ← operatorAt with
      | some o => return operatorToken none o
      | none => do
          let w ← word n ((← get).rest.length + 1) []
          let many ← isExtended
          match Word.plain? w, ← peek with
          | some digits, some c =>
              let isNumber := !digits.isEmpty && digits.toList.all Char.isDigit
                && (many || digits.length == 1)
              if isNumber && (c == '<' || c == '>') then do
                match ← operatorAt with
                | some o => return operatorToken digits.toNat? o
                | none => return .word w
              else return .word w
          | _, _ => return .word w

/-- Reads a token, or the one that was read before. -/
def rawToken (n : Nested) : Read Token := do
  match (← get).back with
  | some t => do
      modify fun r => { r with back := none }
      return t
  | none => scan n

/-- The words with a meaning where a command may start. -/
def reserved (d : Dialect) : List String :=
  ["!", "case", "do", "done", "elif", "else", "esac", "fi", "for", "if", "in", "then", "until",
    "while", "\x7b", "\x7d"] ++ (if d = .extended then ["[[", "function"] else [])

/-- Passes over tokens that are line ends. -/
def skipNewlines (n : Nested) (fuel : Nat) : Read Token :=
  match fuel with
  | 0 => rawToken n
  | left + 1 => do
      match ← rawToken n with
      | .newline => skipNewlines n left
      | t => return t

/-- Reads a token where reserved words may count and line ends may be passed over. -/
def token (n : Nested) (keywords newlines : Bool) : Read Token := do
  let t ← if newlines then skipNewlines n ((← get).rest.length + 1) else rawToken n
  match t with
  | .word w =>
      match Word.plain? w with
      | some text =>
          let d := (← get).dialect
          if keywords && (reserved d).contains text then return .mark text else return .word w
      | none => return .word w
  | t => return t

/-- Reads a token that has to be an operator or a reserved word. -/
def expect (n : Nested) (text : String) (newlines : Bool) : Read Unit := do
  match ← token n true newlines with
  | .mark found => if found = text then pure () else unexpected (.mark found) (some text)
  | t => unexpected t (some text)

/-! ## Redirections -/

/-- The lines of a text in the script up to the one that ends it, and how many lines they are. -/
def hereLines (strip : Bool) (stop : String) (fuel : Nat) (chars : List Char) :
    List String × List Char × Nat :=
  match fuel with
  | 0 => ([], chars, 0)
  | n + 1 =>
      if chars.isEmpty then ([], [], 0)
      else
        let line := chars.takeWhile (· ≠ '\n')
        let bare := if strip then line.dropWhile (· = '\t') else line
        let rest := chars.drop (line.length + 1)
        let feed := if line.length < chars.length then "\n" else ""
        if String.ofList bare = stop then ([], rest, 1)
        else
          let (lines, after, count) := hereLines strip stop n rest
          ((String.ofList bare ++ feed) :: lines, after, count + 1)

/-- The text of a word without its quotes, and whether it has any. -/
def unquoted (w : Word) : String × Bool :=
  w.foldl (fun (text, quoted) p =>
    match p with
    | .text t q => (text ++ t, quoted || q)
    | .parameter name _ q => (text ++ "$" ++ name, quoted || q)
    | _ => (text, quoted)) ("", false)

/-- Takes the text that stands after the current line out of the script. -/
def hereText (n : Nested) (strip : Bool) (stop : Word) : Read Word := do
  let (mark, quoted) := unquoted stop
  let r ← get
  let line := r.rest.takeWhile (· ≠ '\n')
  let after := r.rest.drop (line.length + 1)
  let (lines, rest, count) := hereLines strip mark (after.length + 1) after
  let ended := if line.length < r.rest.length then '\n' :: rest else []
  set { r with rest := line ++ ended, taken := r.taken + count }
  let text := String.join lines
  if quoted then return [.text text true]
  else within text.toList (r.line + r.taken + 1) (n.word .text)

/-- Reads what follows an operator that redirects. -/
def redirection (n : Nested) (descriptor : Option Nat) (operator : String) : Read Redirection := do
  match ← token n false false with
  | .word w =>
      let input := descriptor.getD 0
      let output := descriptor.getD 1
      let copies := match Word.plain? w with
        | some text => text = "-" || (text.length = 1 && text.toList.all Char.isDigit)
        | none => true
      let copies := copies || !(← isExtended)
      match operator with
      | "<" => return .file input .read w
      | ">" => return .file output .write w
      | ">|" => return .file output .overwrite w
      | ">>" => return .file output .append w
      | "<>" => return .file input .both w
      | "<&" => return .file input .copyIn w
      | ">&" => return .file output (if copies then .copyOut else .outputs) w
      | "&>" => return .file 1 .outputs w
      | "&>>" => return .file 1 .appendOutputs w
      | "<<<" => return .here input (w ++ [.text "\n" true])
      | "<<-" => return .here input (← hereText n true w)
      | _ => return .here input (← hereText n false w)
  | t => unexpected t none

/-- Reads the redirections after a command. -/
def redirections (n : Nested) (fuel : Nat) : Read (List Redirection) :=
  match fuel with
  | 0 => return []
  | left + 1 => do
      match ← token n true false with
      | .redirection d o => do
          let r ← redirection n d o
          return r :: (← redirections n left)
      | t => do
          pushBack t
          return []

end PinnedStack.Shell.Reader
