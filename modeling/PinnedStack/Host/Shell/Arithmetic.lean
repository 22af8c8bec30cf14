import PinnedStack.Host.Shell.State

/-!
# Arithmetic of the shell

* `Arith` — expressions. `Arith.parse` — reads one.
* `Arith.value` — the value of an expression, which may assign to variables.
-/

namespace PinnedStack.Shell

/-- An arithmetic expression. `assign` sets a variable to a value, or to what an operator makes of
the old one and it; `step` adds a number to a variable and has the old or the new value. -/
inductive Arith where
  | number (n : Int)
  | variable (name : String)
  | unary (sign : Char) (a : Arith)
  | binary (operator : String) (a b : Arith)
  | choice (test yes no : Arith)
  | assign (name : String) (operator : Option String) (a : Arith)
  | step (name : String) (by_ : Int) (old : Bool)

namespace Arith

inductive Token where
  | number (n : Int)
  | name (name : String)
  | operator (text : String)
  | wrong
deriving DecidableEq

/-- The operators by their characters, the longer ones first. -/
def operators (d : Dialect) : List String :=
  ["<<=", ">>="] ++ (if d = .extended then ["**", "++", "--"] else [])
    ++ ["<<", ">>", "<=", ">=", "==", "!=", "&&", "||", "+=", "-=", "*=", "/=", "%=", "&=", "|=",
      "^=", "+", "-", "*", "/", "%", "&", "|", "^", "<", ">", "=", "!", "~", "?", ":", "(", ")"]
    ++ (if d = .extended then [","] else [])

/-- The tokens of an expression; `fuel` bounds their number. -/
def tokens (d : Dialect) (fuel : Nat) (chars : List Char) : List Token :=
  match fuel, chars with
  | 0, _ => []
  | _, [] => []
  | n + 1, c :: rest =>
      if NumberText.isBlank c then tokens d n rest
      else if c.isDigit then
        match NumberText.naturalAt chars with
        | some (value, after) =>
            .number (min (Int.ofNat value) NumberText.greatest) :: tokens d n after
        | none => [.wrong]
      else if Reader.isNameStart c then
        let name := chars.takeWhile Reader.isNameChar
        .name (String.ofList name) :: tokens d n (chars.drop name.length)
      else
        match (operators d).find? fun o => o.toList.isPrefixOf chars with
        | some o => .operator o :: tokens d n (chars.drop o.length)
        | none => .wrong :: tokens d n rest

/-- The rank of an operator between two operands; the higher binds closer. -/
def rank? (operator : String) : Option Nat :=
  [("||", 1), ("&&", 2), ("|", 3), ("^", 4), ("&", 5), ("==", 6), ("!=", 6), ("<", 7), ("<=", 7),
    (">", 7), (">=", 7), ("<<", 8), (">>", 8), ("+", 9), ("-", 9), ("*", 10), ("/", 10),
    ("%", 10), ("**", 11)].lookup operator

/-- The operator of an assignment that changes a variable. -/
def changes? (text : String) : Option (Option String) :=
  if text = "=" then some none
  else if ["<<=", ">>=", "+=", "-=", "*=", "/=", "%=", "&=", "|=", "^="].contains text then
    some (some (String.ofList text.toList.dropLast))
  else none

/-- An expression at the start of some tokens, and those after it. -/
abbrev Parsed := Except String (Arith × List Token)

/-- Reads an expression without operators between operands; `whole` reads what stands in
parentheses. -/
def operand (whole : List Token → Parsed) (fuel : Nat) (ts : List Token) : Parsed :=
  match fuel, ts with
  | n + 1, .operator o :: rest =>
      match o.toList with
      | ['('] =>
          match whole rest with
          | .error e => .error e
          | .ok (a, .operator ")" :: after) => .ok (a, after)
          | .ok _ => .error "expecting ')'"
      | [c] =>
          if ['+', '-', '!', '~'].contains c then
            (operand whole n rest).map fun (a, after) => (.unary c a, after)
          else .error "expecting primary"
      | ['+', '+'] =>
          match rest with
          | .name name :: after => .ok (.step name 1 false, after)
          | _ => .error "expecting primary"
      | ['-', '-'] =>
          match rest with
          | .name name :: after => .ok (.step name (-1) false, after)
          | _ => .error "expecting primary"
      | _ => .error "expecting primary"
  | _, .number n :: rest => .ok (.number n, rest)
  | _, .name name :: .operator "++" :: rest => .ok (.step name 1 true, rest)
  | _, .name name :: .operator "--" :: rest => .ok (.step name (-1) true, rest)
  | _, .name name :: rest => .ok (.variable name, rest)
  | _, _ => .error "expecting primary"

/-- Reads operators that bind at least as close as a rank, after a first operand. -/
def operations (one : List Token → Parsed) (fuel least : Nat) (left : Arith) (ts : List Token) :
    Parsed :=
  match fuel, ts with
  | n + 1, .operator o :: rest =>
      match rank? o with
      | none => .ok (left, ts)
      | some rank =>
          if rank < least then .ok (left, ts)
          else
            match one rest with
            | .error e => .error e
            | .ok (right, after) =>
                let next := if o = "**" then rank else rank + 1
                match operations one n next right after with
                | .error e => .error e
                | .ok (right, after) =>
                    operations one n least (.binary o left right) after
  | _, _ => .ok (left, ts)

/-- Reads a whole expression: an assignment, a choice or operators. -/
def whole (fuel : Nat) (ts : List Token) : Parsed :=
  match fuel with
  | 0 => .error "expecting primary"
  | n + 1 =>
      let one (ts : List Token) : Parsed := operand (whole n) (n + 1) ts
      let plain : Parsed :=
        match one ts with
        | .error e => .error e
        | .ok (a, rest) =>
            match operations one (n + 1) 1 a rest with
            | .error e => .error e
            | .ok (test, .operator "?" :: rest) =>
                match whole n rest with
                | .error e => .error e
                | .ok (yes, .operator ":" :: rest) =>
                    (whole n rest).map fun (no, rest) => (.choice test yes no, rest)
                | .ok _ => .error "expecting ':'"
            | .ok found => .ok found
      let first : Parsed :=
        match ts with
        | .name name :: .operator o :: rest =>
            match changes? o with
            | some change => (whole n rest).map fun (a, rest) => (.assign name change a, rest)
            | none => plain
        | _ => plain
      match first with
      | .ok (a, .operator "," :: rest) =>
          (whole n rest).map fun (b, rest) => (.binary "," a b, rest)
      | found => found

def parse (d : Dialect) (text : String) : Except String Arith :=
  let ts := tokens d (text.length + 1) text.toList
  match whole (ts.length + 2) ts with
  | .error e => .error e
  | .ok (a, []) => .ok a
  | .ok _ => .error "expecting EOF"

/-! ## Values -/

/-- What an operator makes of two numbers; `none` is a division by zero. -/
def applied? (operator : String) (a b : Int) : Option Int :=
  let truth (p : Bool) : Option Int := some (if p then 1 else 0)
  let amount := NumberText.unsigned b % 64
  let bits (f : Nat → Nat → Nat) : Option Int :=
    some (NumberText.wrap (Int.ofNat (f (NumberText.unsigned a) (NumberText.unsigned b))))
  match operator with
  | "+" => some (NumberText.wrap (a + b))
  | "-" => some (NumberText.wrap (a - b))
  | "*" => some (NumberText.wrap (a * b))
  | "/" => if b = 0 then none else some (NumberText.wrap (a.tdiv b))
  | "%" => if b = 0 then none else some (a.tmod b)
  | "**" => some (NumberText.wrap (Int.pow a b.toNat))
  | "<<" => some (NumberText.wrap (a * Int.ofNat (Nat.pow 2 amount)))
  | ">>" => some (Int.fdiv a (Int.ofNat (Nat.pow 2 amount)))
  | "&" => bits (· &&& ·)
  | "|" => bits (· ||| ·)
  | "^" => bits (· ^^^ ·)
  | "==" => truth (a = b)
  | "!=" => truth (a ≠ b)
  | "<" => truth (a < b)
  | "<=" => truth (a ≤ b)
  | ">" => truth (b < a)
  | ">=" => truth (b ≤ a)
  | _ => some b

/-- The number that the value of a variable is; `text` is the expression for messages. -/
def variableValue (name : String) : Act Int := do
  let s ← get
  let value := (s.get? name).getD ""
  let r := NumberText.read value.toList
  if value.toList.all NumberText.isBlank then return 0
  else if r.found && r.rest.all NumberText.isBlank then
    return max NumberText.least (min r.value NumberText.greatest)
  else if s.dialect = .extended then
    let inner := (s.get? value).getD "0"
    return (NumberText.read inner.toList).value
  else Act.fail s!"Illegal number: {value}"

/-- The value of an expression; `text` is how it was written. -/
def value (text : String) : Arith → Act Int
  | .number n => return n
  | .variable name => variableValue name
  | .unary sign a => do
      let n ← value text a
      match sign with
      | '-' => return NumberText.wrap (-n)
      | '!' => return if n = 0 then 1 else 0
      | '~' => return -n - 1
      | _ => return n
  | .binary "&&" a b => do
      if (← value text a) = 0 then return 0
      else return if (← value text b) = 0 then 0 else 1
  | .binary "||" a b => do
      if (← value text a) ≠ 0 then return 1
      else return if (← value text b) = 0 then 0 else 1
  | .binary o a b => do
      let x ← value text a
      let y ← value text b
      computed o x y
  | .choice test yes no => do
      if (← value text test) ≠ 0 then value text yes else value text no
  | .assign name operator a => do
      let n ← match operator with
        | none => value text a
        | some o => do
            let old ← variableValue name
            computed o old (← value text a)
      Act.assign name (toString n)
      return n
  | .step name by_ old => do
      let before ← variableValue name
      let after := NumberText.wrap (before + by_)
      Act.assign name (toString after)
      return if old then before else after
where
  computed (operator : String) (a b : Int) : Act Int := do
    match applied? operator a b with
    | some n => return n
    | none =>
        if (← get).dialect = .standard then
          Act.fail s!"arithmetic expression: division by zero: \"{text}\""
        else Act.fail s!"{text}: division by 0 (error token is \"{b}\")"

/-- The value of a text as an expression. -/
def evaluate (text : String) : Act Int := do
  let d := (← get).dialect
  if d = .extended && text.toList.all NumberText.isBlank then return 0
  else
    match parse d text with
    | .ok a => value text a
    | .error e => Act.fail s!"arithmetic expression: {e}: \"{text}\""

end Arith

end PinnedStack.Shell
