import PinnedStack.Host.Tool.Quote
import PinnedStack.Host.Tool.Test

/-!
# Verdicts

The program `test` reads its words by other rules than the shell's own test does: how many words
there are decides what they mean, a number has no bounds, and a word too many is a fault.

* `Verdict.term`, `Verdict.joint` — one question, and questions that are joined.
* `Verdict.counted` — what a number of words means.
* `Verdict.run` — the answer to all the words, or what is wrong with them.
-/

namespace PinnedStack.Verdict

/-- An answer and the words that are left, or what is wrong. -/
abbrev Answer := Except String (Bool × List String)

/-- The complaint that a word has to follow the last one. -/
def missing (last : String) : Except String α :=
  .error s!"missing argument after {Quote.always last}"

/-- The names of the questions about two words. -/
def binaryNames : List String :=
  ["=", "==", "!=", "-eq", "-ne", "-gt", "-ge", "-lt", "-le", "-nt", "-ot", "-ef"]

/-- The letters of the questions about one word. -/
def unaryLetters : List Char := "rwxefdcbpugkshLNOGSnzt".toList

def number (word : String) : Except String Int :=
  match NumberText.decimal? word with
  | some n => .ok n
  | none => .error s!"invalid integer {Quote.always word}"

def isFlag (word : String) : Bool :=
  word.length = 2 && word.startsWith "-"

/-- The answer to a question about one word, which is a dash and a letter. -/
def unary (d : Disk) (last : String) : List String → Answer
  | [] => missing last
  | flag :: words =>
      let letter := flag.toList.getLast?.getD '-'
      if !unaryLetters.contains letter then
        .error s!"{Quote.always flag}: unary operator expected"
      else
        match words with
        | [] => missing last
        | word :: rest =>
            if letter = 't' then (number word).map fun _ => (false, rest)
            else if letter = 'N' then .ok (false, rest)
            else (Test.unary d letter word).map fun answer => (answer, rest)

/-- Is a file newer than another? Files have no age here, but one that exists is newer than one
that does not. -/
def isNewer (d : Disk) (a b : String) : Bool := (d.entry a).toBool && !(d.entry b).toBool

/-- The answer to a question about two words; either may be the length of the word that follows
a `-l`. -/
def binary (d : Disk) (left : Bool) (words : List String) : Answer :=
  let words := if left then words.drop 1 else words
  match words with
  | a :: name :: more =>
      let right := more.head? = some "-l" && 1 < more.length
      let b := ((if right then more.drop 1 else more).head?).getD ""
      let rest := more.drop (if right then 2 else 1)
      let value (isLength : Bool) (word : String) : Except String Int :=
        if isLength then .ok (Int.ofNat word.utf8ByteSize) else number word
      if name = "=" ∨ name = "==" then .ok ((if right then name else a) = b, rest)
      else if name = "!=" then .ok ((if right then name else a) ≠ b, rest)
      else if ["-nt", "-ot", "-ef"].contains name then
        if left || right then .error s!"{name} does not accept -l\n"
        else if name = "-nt" then .ok (isNewer d a b, rest)
        else if name = "-ot" then .ok (isNewer d b a, rest)
        else (Test.binary d name a b).map fun answer => (answer, rest)
      else
        match value left a, value right b with
        | .error e, _ => .error e
        | _, .error e => .error e
        | .ok x, .ok y =>
            let answer := match name with
              | "-eq" => decide (x = y)
              | "-ne" => decide (x ≠ y)
              | "-gt" => decide (y < x)
              | "-ge" => decide (y ≤ x)
              | "-lt" => decide (x < y)
              | _ => decide (x ≤ y)
            .ok (answer, rest)
  | _ => .ok (false, [])

/-- The same words, asked the other way round. -/
def opposite (a : Answer) : Answer := a.map fun (answer, rest) => (!answer, rest)

/-- Is one word there, and is it not nothing? -/
def single : List String → Answer
  | [] => .ok (false, [])
  | word :: rest => .ok (word ≠ "", rest)

def pair (d : Disk) (last : String) (words : List String) : Answer :=
  match words with
  | first :: rest =>
      if first = "!" then opposite (single rest)
      else if isFlag first then unary d last words
      else missing last
  | [] => missing last

/-- What three words mean; `whole` reads questions that are joined. -/
def triple (d : Disk) (last : String) (whole : List String → Answer) (words : List String) :
    Answer :=
  match words with
  | first :: second :: more =>
      if binaryNames.contains second then binary d false words
      else if first = "!" then opposite (pair d last (second :: more))
      else if first = "(" ∧ more.head? = some ")" then
        (single (second :: more)).map fun (answer, rest) => (answer, rest.drop 1)
      else if second = "-a" ∨ second = "-o" then whole words
      else .error s!"{Quote.always second}: binary operator expected"
  | _ => missing last

def counted (d : Disk) (last : String) (whole : List String → Answer) (count : Nat)
    (words : List String) : Answer :=
  match count with
  | 1 => single words
  | 2 => pair d last words
  | 3 => triple d last whole words
  | 4 =>
      if words.head? = some "!" then opposite (triple d last whole (words.drop 1))
      else if words.head? = some "(" ∧ words[3]? = some ")" then
        (pair d last (words.drop 1)).map fun (answer, rest) => (answer, rest.drop 1)
      else whole words
  | _ => whole words

/-- How many of some words stand before a closing parenthesis, of which the first counts whatever
it is; more than four mean all of them. -/
def enclosed (words : List String) : Nat :=
  let n := ((words.drop 1).takeWhile (· ≠ ")")).length + 1
  if n ≤ 4 then n else words.length

/-- Reads one question, which may be denied or stand in parentheses. -/
def term (d : Disk) (last : String) (whole : List String → Answer) : List String → Answer
  | [] => missing last
  | "!" :: rest => opposite (term d last whole rest)
  | "(" :: rest =>
      if rest.isEmpty then missing last
      else
        match counted d last whole (enclosed rest) rest with
        | .error e => .error e
        | .ok (answer, ")" :: after) => .ok (answer, after)
        | .ok (_, []) => .error "')' expected"
        | .ok (_, word :: _) => .error s!"')' expected, found {Quote.always word}"
  | word :: rest =>
      if 3 ≤ rest.length ∧ word = "-l" ∧ binaryNames.contains (rest[1]?.getD "") then
        binary d true (word :: rest)
      else if 2 ≤ rest.length ∧ binaryNames.contains (rest.headD "") then
        binary d false (word :: rest)
      else if isFlag word then unary d last (word :: rest)
      else single (word :: rest)

/-- Reads questions with an operator between them; `combine` joins their answers, and all of them
are asked. -/
def joint (one : List String → Answer) (name : String) (combine : Bool → Bool → Bool) (fuel : Nat)
    (words : List String) : Answer :=
  match fuel, one words with
  | n + 1, .ok (answer, next :: rest) =>
      if next = name then
        (joint one name combine n rest).map fun (other, after) => (combine answer other, after)
      else .ok (answer, next :: rest)
  | _, found => found

/-- Reads questions that are joined; `fuel` bounds how deep parentheses nest. -/
def whole (d : Disk) (last : String) (fuel : Nat) : List String → Answer :=
  match fuel with
  | 0 => fun _ => missing last
  | n + 1 => fun words =>
      joint (joint (term d last (whole d last n)) "-a" (· && ·) words.length) "-o" (· || ·)
        words.length words

/-- The answer to the words of a test. -/
def run (d : Disk) (words : List String) : Except String Bool :=
  let last := words.getLast?.getD ""
  if words.isEmpty then .ok false
  else
    match counted d last (whole d last (words.length + 1)) words.length words with
    | .error e => .error e
    | .ok (answer, []) => .ok answer
    | .ok (_, word :: _) => .error s!"extra argument {Quote.always word}"

end PinnedStack.Verdict
