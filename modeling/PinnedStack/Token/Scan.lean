import PinnedStack.Token.Basic
import PinnedStack.Token.Blank
import PinnedStack.Token.Numeral

/-!
# From characters to tokens

The text is read one character at a time.

* `Scanner` — the tokens so far, the place of the next character and what is being read.
* `Scanner.step` — one character. A comment and a `c"` literal begin as words and are told apart by
  their second character, so both are seen only where a token could begin.
* `Scanner.finish` — the end of the text.
* `Scanned.ofText` — the tokens of a text, or the first fault in it.
-/

namespace PinnedStack

/-- The literals written between quotes. A `char` is one byte, taken as a number. -/
inductive Literal where
  | str
  | cstr
  | char
deriving DecidableEq

namespace Literal

/-- The character that closes a literal. -/
def quote : Literal → Char
  | char => '\''
  | _ => '"'

/-- The token of a complete literal. -/
def token (form : Literal) (start : Place) (text : List Char) : Except Diagnostic Token :=
  let text := String.ofList text
  match form with
  | str => .ok ⟨.str text, s!"\"{text}\"", start⟩
  | cstr => .ok ⟨.cstr text, s!"c\"{text}\"", start⟩
  | char =>
      match utf8Bytes text with
      | [byte] => .ok ⟨.int (Int64.ofNat byte.toNat), s!"'{text}'", start⟩
      | _ => .error (.malformed start .characterNotOneByte)

end Literal

/-- The character an escape stands for, by the one after the backslash. -/
def unescape? : Char → Option Char
  | 'n' => some '\n'
  | 'r' => some '\r'
  | 't' => some '\t'
  | '0' => some '\x00'
  | '\\' => some '\\'
  | '"' => some '"'
  | '\'' => some '\''
  | _ => none

/-- The kind of a word. -/
def Token.Kind.ofWord (word : String) (place : Place) : Except Diagnostic Token.Kind :=
  match Keyword.ofText? word with
  | some k => .ok (.keyword k)
  | none =>
      if Numeral.looksNumeric word.toList then
        match Numeral.value? word.toList with
        | some value => .ok (.int value)
        | none => .error (.malformed place (.invalidInteger word))
      else .ok .word

/-- The token of a complete word. -/
def Token.ofWord (start : Place) (word : List Char) : Except Diagnostic Token :=
  let lexeme := String.ofList word
  match Token.Kind.ofWord lexeme start with
  | .ok kind => .ok ⟨kind, lexeme, start⟩
  | .error d => .error d

/-- What is being read: the gap between tokens, a comment, a word or a literal, which may stand
after a backslash or after its closing quote. Characters are kept with the latest first. -/
inductive Scanner.Mode where
  | gap
  | comment
  | word (start : Place) (chars : List Char)
  | quoted (form : Literal) (start : Place) (chars : List Char)
  | escape (form : Literal) (start : Place) (chars : List Char) (backslash : Place)
  | closed (form : Literal) (start : Place) (chars : List Char)
deriving DecidableEq

/-- A text that is read up to the place of some character, with the complete tokens, the latest
first. -/
structure Scanner where
  tokens : List Token
  mode : Scanner.Mode
  place : Place
deriving DecidableEq

namespace Scanner

/-- Before the first character of a file. -/
def start (file : String) : Scanner := ⟨[], .gap, .start file⟩

/-- What one character changes in the tokens and in what is being read. -/
def read (s : Scanner) (c : Char) : Except Diagnostic (List Token × Mode) :=
  match s.mode with
  | .gap =>
      if isBlank c then .ok (s.tokens, .gap)
      else if c = '"' then .ok (s.tokens, .quoted .str s.place [])
      else if c = '\'' then .ok (s.tokens, .quoted .char s.place [])
      else .ok (s.tokens, .word s.place [c])
  | .comment => .ok (s.tokens, if c = '\n' then .gap else .comment)
  | .word start chars =>
      if isBlank c then
        match Token.ofWord start chars.reverse with
        | .ok t => .ok (t :: s.tokens, .gap)
        | .error d => .error d
      else if chars = ['c'] ∧ c = '"' then .ok (s.tokens, .quoted .cstr start [])
      else if chars = ['/'] ∧ c = '/' then .ok (s.tokens, .comment)
      else .ok (s.tokens, .word start (c :: chars))
  | .quoted form start chars =>
      if c = form.quote then .ok (s.tokens, .closed form start chars)
      else if c = '\\' then .ok (s.tokens, .escape form start chars s.place)
      else .ok (s.tokens, .quoted form start (c :: chars))
  | .escape form start chars backslash =>
      match unescape? c with
      | some d => .ok (s.tokens, .quoted form start (d :: chars))
      | none => .error (.malformed backslash (.unknownEscape c))
  | .closed form start chars =>
      if isBlank c then
        match form.token start chars.reverse with
        | .ok t => .ok (t :: s.tokens, .gap)
        | .error d => .error d
      else .error (.malformed s.place .literalNotSeparated)

/-- Reads one character. -/
def step (s : Scanner) (c : Char) : Except Diagnostic Scanner :=
  match s.read c with
  | .ok (tokens, mode) => .ok ⟨tokens, mode, s.place.after c⟩
  | .error d => .error d

def finish (s : Scanner) : Except Diagnostic Scanned :=
  match s.mode with
  | .gap => .ok ⟨s.tokens.reverse, s.place⟩
  | .comment => .ok ⟨s.tokens.reverse, s.place⟩
  | .word start chars =>
      match Token.ofWord start chars.reverse with
      | .ok t => .ok ⟨(t :: s.tokens).reverse, s.place⟩
      | .error d => .error d
  | .quoted form start _ => .error (.malformed start (.unterminatedLiteral form.quote))
  | .escape _ start _ _ => .error (.malformed start .literalEndsInEscape)
  | .closed form start chars =>
      match form.token start chars.reverse with
      | .ok t => .ok ⟨(t :: s.tokens).reverse, s.place⟩
      | .error d => .error d

/-- Reads characters until the first fault. -/
def run (s : Scanner) : List Char → Except Diagnostic Scanner
  | [] => .ok s
  | c :: cs =>
      match s.step c with
      | .ok next => next.run cs
      | .error d => .error d

theorem run_append (s : Scanner) (a b : List Char) :
    s.run (a ++ b) = (s.run a).bind (·.run b) := by
  induction a generalizing s with
  | nil => rfl
  | cons c a ih =>
    simp only [List.cons_append, run]
    cases s.step c with
    | ok next => exact ih next
    | error d => rfl

end Scanner

/-- The tokens of a text. -/
def Scanned.ofText (text file : String) : Except Diagnostic Scanned :=
  match (Scanner.start file).run text.toList with
  | .ok s => s.finish
  | .error d => .error d

end PinnedStack
