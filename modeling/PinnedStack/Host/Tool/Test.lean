import PinnedStack.Host.Disk
import PinnedStack.Host.NumberText

/-!
# Tests

* `Test.Operator` — the questions that a test can ask, and how they are joined.
* `Test.run` — the answer to the words of a test, or what is wrong with them.
-/

namespace PinnedStack.Test

inductive Operator where
  | unary (letter : Char)
  | binary (name : String)
  | not
  | and
  | or
  | opening
  | closing
deriving DecidableEq

/-- The letters of the questions about one word. -/
def unaryLetters : List Char := "rwxefdcbpugkshLOGSnzt".toList

/-- The names of the questions about two words. -/
def binaryNames : List String :=
  ["=", "!=", "<", ">", "-eq", "-ne", "-gt", "-ge", "-lt", "-le", "-nt", "-ot", "-ef"]

def operator? (word : String) : Option Operator :=
  match word.toList with
  | ['!'] => some .not
  | ['('] => some .opening
  | [')'] => some .closing
  | ['-', 'a'] => some .and
  | ['-', 'o'] => some .or
  | ['-', c] => if unaryLetters.contains c then some (.unary c) else none
  | _ => if binaryNames.contains word then some (.binary word) else none

/-- Is a word a question about the words at its sides? -/
def isBinary (word : String) : Bool :=
  match operator? word with
  | some (.binary _) => true
  | _ => false

inductive Token where
  | done
  | operand
  | operator (o : Operator)
deriving DecidableEq

/-- What the first word means where it stands: a question about one word is an operand if no word
follows, or if a question about two does. -/
def token : List String → Token
  | [] => .done
  | word :: rest =>
      match operator? word with
      | none => .operand
      | some (.unary c) =>
          match rest with
          | [] => .operand
          | [_] => .operator (.unary c)
          | next :: _ => if isBinary next then .operand else .operator (.unary c)
      | some .opening => if rest.isEmpty then .operand else .operator .opening
      | some o => .operator o

/-- An answer, and the words from the last one on that it took. -/
abbrev Answer := Except String (Bool × List String)

def complaint (word message : String) : String :=
  if word = "" then message else s!"{word}: {message}"

def number (word : String) : Except String Int :=
  match NumberText.decimal? word with
  | some n =>
      if NumberText.least ≤ n ∧ n ≤ NumberText.greatest then .ok n
      else .error s!"Illegal number: {word}"
  | none => .error s!"Illegal number: {word}"

/-- The answer to a question about a file. -/
def fileAnswer (d : Disk) (letter : Char) (path : String) : Bool :=
  let found := if letter = 'h' ∨ letter = 'L' then d.entryLink path else d.entry path
  match found with
  | .error _ => false
  | .ok entry =>
      match letter, entry with
      | 'f', .file _ => true
      | 'f', .program _ => true
      | 'f', _ => false
      | 'd', .directory _ => true
      | 'd', _ => false
      | 'c', .device _ => true
      | 'c', _ => false
      | 's', .file id => !(d.file id).bytes.isEmpty
      | 's', .device _ => false
      | 'x', .file id => (d.file id).mode &&& 0o111 != 0
      | 'x', .device _ => false
      | 'h', .link _ => true
      | 'L', .link _ => true
      | c, _ => ['r', 'w', 'x', 'e', 's', 'O', 'G'].contains c

/-- The answer to a question about one word. -/
def unary (d : Disk) (letter : Char) (word : String) : Except String Bool :=
  if letter = 'n' then .ok (word ≠ "")
  else if letter = 'z' then .ok (word = "")
  else if letter = 't' then (number word).map fun _ => false
  else .ok (fileAnswer d letter word)

def sameFile (d : Disk) (a b : String) : Bool :=
  match d.locate a, d.locate b with
  | .ok x, .ok y => (d.find? x).isSome && (x == y || (d.find? x == d.find? y &&
      match d.find? x with
      | some (.file _) => true
      | _ => false))
  | _, _ => false

/-- The answer to a question about two numbers. -/
def compare (name a b : String) : Except String Bool :=
  match number a, number b with
  | .error e, _ => .error e
  | _, .error e => .error e
  | .ok x, .ok y =>
      match name with
      | "-eq" => .ok (x = y)
      | "-ne" => .ok (x ≠ y)
      | "-gt" => .ok (x > y)
      | "-ge" => .ok (x ≥ y)
      | "-lt" => .ok (x < y)
      | _ => .ok (x ≤ y)

/-- The answer to a question about two words. Files have no age here, so that none is newer. -/
def binary (d : Disk) (name a b : String) : Except String Bool :=
  match name with
  | "=" => .ok (a = b)
  | "!=" => .ok (a ≠ b)
  | "<" => .ok (a < b)
  | ">" => .ok (b < a)
  | "-nt" => .ok false
  | "-ot" => .ok false
  | "-ef" => .ok (sameFile d a b)
  | _ => compare name a b

/-- Answers one question; `inner` answers what stands in parentheses. -/
def primary (d : Disk) (inner : Token → List String → Answer) (t : Token) (words : List String) :
    Answer :=
  match t with
  | .done => .ok (false, words)
  | .operator .opening =>
      let rest := words.drop 1
      if token rest = .operator .closing then .ok (false, rest)
      else
        match inner (token rest) rest with
        | .error e => .error e
        | .ok (answer, last) =>
            let after := last.drop 1
            if token after = .operator .closing then .ok (answer, after)
            else .error "closing paren expected"
  | .operator (.unary letter) =>
      match words.drop 1 with
      | [] => .error (complaint (words.headD "") "argument expected")
      | word :: rest => (unary d letter word).map fun answer => (answer, word :: rest)
  | _ =>
      match words.drop 1 with
      | name :: rest =>
          if token (name :: rest) = .operator (.binary name) then
            match rest with
            | [] => .error (complaint name "argument expected")
            | b :: after =>
                (binary d name (words.headD "") b).map fun answer => (answer, b :: after)
          else .ok (words.headD "" ≠ "", words)
      | [] => .ok (words.headD "" ≠ "", words)

/-- Answers a question that may be denied, any number of times. -/
def denied (d : Disk) (inner : Token → List String → Answer) (fuel : Nat) (t : Token)
    (words : List String) : Answer :=
  match fuel, t with
  | n + 1, .operator .not =>
      let next := token (words.drop 1)
      let rest := if next = .done then words else words.drop 1
      (denied d inner n next rest).map fun (answer, last) => (!answer, last)
  | _, _ => primary d inner t words

/-- Answers questions that are joined by an operator; `combine` joins two answers. -/
def joined (one : Token → List String → Answer) (o : Operator) (combine : Bool → Bool → Bool)
    (fuel : Nat) (soFar : Bool) (t : Token) (words : List String) : Answer :=
  match fuel with
  | 0 => .ok (soFar, words)
  | n + 1 =>
      match one t words with
      | .error e => .error e
      | .ok (answer, last) =>
          let now := combine soFar answer
          if token (last.drop 1) = .operator o then
            joined one o combine n now (token (last.drop 2)) (last.drop 2)
          else .ok (now, last)

/-- Answers a whole test; `fuel` bounds the depth of parentheses and the number of operators. -/
def whole (d : Disk) (fuel : Nat) : Token → List String → Answer :=
  match fuel with
  | 0 => fun _ words => .ok (false, words)
  | n + 1 =>
      let conjunction := joined (denied d (whole d n) (n + 1)) .and (· && ·) (n + 1) true
      joined conjunction .or (· || ·) (n + 1) false

/-- Answers words of which the first may be an operator. -/
def evaluate (d : Disk) (t : Token) (words : List String) : Except String Bool :=
  match whole d (words.length + 1) t words with
  | .error e => .error e
  | .ok (answer, last) =>
      match last with
      | word :: _ :: _ => .error (complaint word "unexpected operator")
      | _ => .ok answer

/-- The answer to some words, which may be denied. Three and four words are read by their number
first, and then any number of signs in front denies once. -/
def counted (d : Disk) (deny : Bool) : List String → Except String Bool
  | [] => .ok false
  | [a, b, c] =>
      if isBinary b then (evaluate d .operand [a, b, c]).map (· != deny)
      else if a = "(" ∧ c = ")" then (evaluate d (token [b]) [b]).map (· != deny)
      else if a = "!" then counted d true [b, c]
      else (evaluate d (token [a, b, c]) [a, b, c]).map (· != deny)
  | [a, b, c, e] =>
      if a = "(" ∧ e = ")" then (evaluate d (token [b, c]) [b, c]).map (· != deny)
      else if a = "!" then counted d true [b, c, e]
      else (evaluate d (token [a, b, c, e]) [a, b, c, e]).map (· != deny)
  | words => (evaluate d (token words) words).map (· != deny)

/-- The answer to the words of a test. -/
def run (d : Disk) (words : List String) : Except String Bool := counted d false words

end PinnedStack.Test
