import PinnedStack.Host.Shell.Reading

/-!
# Reading words

* `Reader.word` — a word of a script. `Reader.inside` — the inside of quotes, braces and more.
* `Reader.dollar`, `Reader.braced` — parameters, arithmetic and what commands write.
-/

namespace PinnedStack.Shell

namespace Reader

open Read

def isNameStart (c : Char) : Bool := c.isAlpha || c == '_'

def isNameChar (c : Char) : Bool := c.isAlphanum || c == '_'

/-- The parameters that are no names or numbers. -/
def specials : List Char := ['#', '?', '$', '!', '@', '*', '-']

/-- Adds text to the parts of a word, the latest first. -/
def addText (acc : List Piece) (text : String) (quoted : Bool) : List Piece :=
  match acc with
  | .text before q :: rest =>
      if q = quoted then .text (before ++ text) q :: rest else .text text quoted :: acc
  | _ => .text text quoted :: acc

/-- The characters up to a single quote; the first one stands in some line. -/
def singleQuoted (line fuel : Nat) : Read (List Char) :=
  match fuel with
  | 0 => throw (.unclosed '\'' line)
  | n + 1 => do
      match ← next with
      | none => throw (.unclosed '\'' line)
      | some '\'' => return []
      | some c => return c :: (← singleQuoted line n)

/-- The text of a command in backquotes; the first one stands in some line. -/
def backquoted (quoted : Bool) (line fuel : Nat) : Read (List Char) :=
  match fuel with
  | 0 => throw (.unclosed '\x60' line)
  | n + 1 => do
      match ← next with
      | none => throw (.unclosed '\x60' line)
      | some '\x60' => return []
      | some '\\' => do
          match ← next with
          | none => throw (.unclosed '\x60' line)
          | some '\n' => backquoted quoted line n
          | some c =>
              if c = '\\' ∨ c = '\x60' ∨ c = '$' ∨ (quoted ∧ c = '"') then
                return c :: (← backquoted quoted line n)
              else return '\\' :: c :: (← backquoted quoted line n)
      | some c => return c :: (← backquoted quoted line n)

/-- Reads something from a text, which starts at some line, in place of the script. -/
def within {α : Type} (text : List Char) (line : Nat) (read : Read α) : Read α := do
  let r ← get
  set { r with rest := text, line := line, taken := 0, back := none }
  let found ← read
  set r
  return found

/-- What a sign after a parameter means. -/
def usesWord (ifEmpty : Bool) (sign : Char) : Option (Word → Use) :=
  match sign with
  | '-' => some (.orElse ifEmpty)
  | '=' => some (.assign ifEmpty)
  | '?' => some (.demand ifEmpty)
  | '+' => some (.instead ifEmpty)
  | _ => none

/-- Reads a use of a parameter that only the extended language knows, after its first sign. -/
def extendedUse (n : Nested) (quoted : Bool) (sign : Char) : Read Use := do
  match sign with
  | '/' => do
      let replaced : Replaced ← do
        match ← peek with
        | some '/' => do skip; pure .every
        | some '#' => do skip; pure .atStart
        | some '%' => do skip; pure .atEnd
        | _ => pure .first
      let pattern ← n.word (.braces false ['/'])
      if (← get).back.isSome then
        modify fun r => { r with back := none }
        return .replace replaced pattern (← n.word (.braces quoted []))
      else return .replace replaced pattern []
  | ':' => do
      let start ← n.word (.braces true [':'])
      if (← get).back.isSome then
        modify fun r => { r with back := none }
        return .part start (some (← n.word (.braces true [])))
      else return .part start none
  | _ => do
      let _ ← n.word (.braces quoted [])
      return .wrong

/-- Reads what becomes of a parameter, up to the closing brace. -/
def useAt (n : Nested) (quoted : Bool) : Read Use := do
  match ← peekJoined with
  | some '\x7d' => do skip; return .value
  | some ':' => do
      skip
      let sign := (← peekJoined).getD ' '
      match usesWord true sign with
      | some use => do
          skip
          return use (← n.word (.braces quoted []))
      | none => if ← isExtended then extendedUse n quoted ':' else extendedUse n quoted ' '
  | some '%' => do
      skip
      if (← peekJoined) == some '%' then
        skip
        return .trim .longestEnd (← n.word (.braces false []))
      else return .trim .shortestEnd (← n.word (.braces false []))
  | some '#' => do
      skip
      if (← peekJoined) == some '#' then
        skip
        return .trim .longestStart (← n.word (.braces false []))
      else return .trim .shortestStart (← n.word (.braces false []))
  | some sign => do
      match usesWord false sign with
      | some use => do
          skip
          return use (← n.word (.braces quoted []))
      | none =>
          if (← isExtended) && sign == '/' then do
            skip
            extendedUse n quoted sign
          else do
            if sign = '\n' then modify fun r => { r with rest := r.rest.drop 1 }
            extendedUse n quoted ' '
  | none => throw (.unclosed '\x7d' (← get).line)

/-- The name of a parameter in braces; it is empty if none stands there. -/
def parameterName : Read String := do
  match ← peekJoined with
  | some c =>
      if isNameStart c then span isNameChar
      else if c.isDigit then span Char.isDigit
      else if specials.contains c then do
        skip
        return String.singleton c
      else return ""
  | none => return ""

/-- Reads a parameter in braces, after the opening one. -/
def braced (n : Nested) (quoted : Bool) : Read Piece := do
  match (← get).rest with
  | '#' :: '\x7d' :: _ => do
      skip
      skip
      return .parameter "#" .value quoted
  | '#' :: c :: after =>
      let isLength := isNameChar c || (specials.contains c && after.head? == some '\x7d')
      if isLength then do
        skip
        let name ← parameterName
        if (← peekJoined) == some '\x7d' then do
          skip
          return .parameter name .length quoted
        else return .parameter name (← extendedUse n quoted ' ') quoted
      else do
        skip
        return .parameter "#" (← useAt n quoted) quoted
  | _ => do
      let name ← parameterName
      if name = "" then return .parameter name (← extendedUse n quoted ' ') quoted
      else return .parameter name (← useAt n quoted) quoted

/-- Reads commands up to a closing parenthesis. -/
def parenthesized (n : Nested) : Read (List Command) := do
  let commands ← n.list .optional
  let t := (← get).back.getD .stop
  match t with
  | .mark ")" => do
      modify fun r => { r with back := none }
      return commands
  | .stop =>
      if ← isExtended then throw (.unclosed ')' (← get).line) else unexpected .stop (some ")")
  | t => unexpected t (some ")")

/-- Reads what stands after a dollar sign. -/
def dollar (n : Nested) (quoted : Bool) (acc : List Piece) : Read (List Piece) := do
  match ← peekJoined with
  | some '(' => do
      skip
      if (← peekJoined) == some '(' then do
        skip
        return .arithmetic (← n.word .arithmetic) quoted :: acc
      else do
        let back := (← get).back
        modify fun r => { r with back := none }
        let commands ← parenthesized n
        modify fun r => { r with back := back }
        return .output commands quoted :: acc
  | some '\x7b' => do
      skip
      return (← braced n quoted) :: acc
  | some c =>
      if isNameStart c then return .parameter (← span isNameChar) .value quoted :: acc
      else if c.isDigit || specials.contains c then do
        skip
        return .parameter (String.singleton c) .value quoted :: acc
      else return addText acc "$" quoted
  | none => return addText acc "$" quoted

/-- Reads a command in backquotes, after the first. -/
def backquote (n : Nested) (quoted : Bool) (acc : List Piece) : Read (List Piece) := do
  let line := (← get).line
  let chars ← backquoted quoted line ((← get).rest.length + 1)
  let commands ← within chars (if ← isExtended then line else 1) (n.list .optional)
  return .output commands quoted :: acc

/-- Does a use of a list stand for a list again? -/
def Use.keepsList : Use → Bool
  | .value => true
  | .part _ _ => true
  | .trim _ _ => true
  | .replace _ _ _ => true
  | _ => false

/-- May a part between double quotes be nothing at all? -/
def mayVanish : Piece → Bool
  | .parameter name use _ => name = "@" && Use.keepsList use
  | _ => false

/-- The parts of a word between double quotes. They are a field unless they may vanish. -/
def quotedParts (parts : Word) (acc : List Piece) : List Piece :=
  match parts with
  | [p] => if mayVanish p then p :: acc else p :: addText acc "" true
  | _ => parts.reverse ++ addText acc "" true

/-- Reads what stands after a backslash outside quotes. -/
def escaped (acc : List Piece) : Read (List Piece) := do
  match ← next with
  | none => return addText acc "\\" true
  | some '\n' => return acc
  | some c => return addText acc (String.singleton c) true

/-- Reads what stands after a backslash between quotes: it counts only before some characters. -/
def escapedIn (counts : List Char) (acc : List Piece) : Read (List Piece) := do
  match ← peek with
  | none => return addText acc "\\" true
  | some '\n' => do
      skip
      return acc
  | some c => do
      skip
      if counts.contains c then return addText acc (String.singleton c) true
      else return addText acc (String.ofList ['\\', c]) true

/-- Reads the inside of a word, which starts in some line, up to its end. The parts read so far are
given, the latest first, and the parentheses that are open. -/
def inside (n : Nested) (kind : Inside) (line fuel depth : Nat) (acc : List Piece) : Read Word :=
  match fuel with
  | 0 => throw .excess
  | left + 1 => do
      let quoted := match kind with
        | .braces q _ => q
        | _ => true
      match ← next with
      | none =>
          match kind with
          | .quotes => throw (.unclosed '"' line)
          | .braces _ _ => throw (.unclosed '\x7d' line)
          | .arithmetic => throw (.unclosed ')' line)
          | .text => return acc.reverse
      | some '$' => do inside n kind line left depth (← dollar n quoted acc)
      | some '\x60' => do inside n kind line left depth (← backquote n quoted acc)
      | some '\\' => do
          match kind with
          | .braces false _ => inside n kind line left depth (← escaped acc)
          | .text => inside n kind line left depth (← escapedIn ['$', '\x60', '\\'] acc)
          | .braces true _ =>
              inside n kind line left depth (← escapedIn ['$', '\x60', '\\', '"', '\x7d'] acc)
          | _ => inside n kind line left depth (← escapedIn ['$', '\x60', '\\', '"'] acc)
      | some c =>
          let plain := addText acc (String.singleton c) quoted
          match kind, c with
          | .quotes, '"' => return acc.reverse
          | .braces _ _, '\x7d' => return acc.reverse
          | .braces false _, '\'' => do
              let chars ← singleQuoted (← get).line ((← get).rest.length + 1)
              inside n kind line left depth (addText acc (String.ofList chars) true)
          | .braces _ ends, c =>
              if c = '"' then do
                inside n kind line left depth (quotedParts (← n.word .quotes) acc)
              else if ends.contains c then do
                pushBack (.mark (String.singleton c))
                return acc.reverse
              else inside n kind line left depth plain
          | .arithmetic, '(' => inside n kind line left (depth + 1) plain
          | .arithmetic, ')' =>
              match depth with
              | d + 1 => inside n kind line left d plain
              | 0 => do
                  if (← peekJoined) == some ')' then do
                    skip
                    return acc.reverse
                  else inside n kind line left depth plain
          | .arithmetic, '"' => do
              inside n kind line left depth (if ← isExtended then acc else plain)
          | _, _ => inside n kind line left depth plain

def isMeta (c : Char) : Bool := " \t\n;&|<>()".toList.contains c

/-- Reads the rest of a word, up to a character that ends it. -/
def wordTo (isEnd : Char → Bool) (n : Nested) (fuel : Nat) (acc : List Piece) : Read Word :=
  match fuel with
  | 0 => throw .excess
  | left + 1 => do
      match ← peekJoined with
      | none => return acc.reverse
      | some c =>
          if isEnd c then return acc.reverse
          else do
            skip
            match c with
            | '\'' => do
                let chars ← singleQuoted (← get).line ((← get).rest.length + 1)
                wordTo isEnd n left (addText acc (String.ofList chars) true)
            | '"' => do wordTo isEnd n left (quotedParts (← n.word .quotes) acc)
            | '\\' => do wordTo isEnd n left (← escaped acc)
            | '$' => do wordTo isEnd n left (← dollar n false acc)
            | '\x60' => do wordTo isEnd n left (← backquote n false acc)
            | c => wordTo isEnd n left (addText acc (String.singleton c) false)

def word (n : Nested) (fuel : Nat) (acc : List Piece) : Read Word := wordTo isMeta n fuel acc

end Reader

end PinnedStack.Shell
