import PinnedStack.Host.NumberText
import PinnedStack.Utf8

/-!
# Backslash escapes

* `Escape.next` — the bytes that the characters after a backslash stand for.
* `Escape.nextMore` — the same in a language with more escapes.
* `Escape.expand`, `Escape.expandMore` — a text with escapes, as `echo` and the directive `%b`
  write it.
-/

namespace PinnedStack.Escape

/-- The byte that a letter after a backslash stands for. -/
def letter? (c : Char) : Option UInt8 :=
  [('\\', 92), ('a', 7), ('b', 8), ('e', 27), ('f', 12), ('n', 10), ('r', 13), ('t', 9),
    ('v', 11)].lookup c

/-- The byte of at most three octal digits. -/
def octal (digits : List Char) : UInt8 := UInt8.ofNat (NumberText.value 8 digits)

/-- What the characters after a backslash stand for, and how many of them belong to it. A character
that means nothing leaves the backslash as it is. -/
def next (chars : List Char) : List UInt8 × Nat :=
  match chars with
  | [] => ([92], 0)
  | c :: _ =>
      match letter? c with
      | some b => ([b], 1)
      | none =>
          let digits := (chars.take 3).takeWhile (NumberText.isDigit 8)
          if digits.isEmpty then ([92], 0) else ([octal digits], digits.length)

/-- The bytes of a character by its number. -/
def unicode (digits : List Char) : List UInt8 :=
  utf8Bytes (String.singleton (Char.ofNat (NumberText.value 16 digits)))

/-- What the characters after a backslash stand for, where escapes may be hexadecimal too, and how
many of them belong to it. -/
def nextMore (chars : List Char) : List UInt8 × Nat :=
  let hexadecimal (most : Nat) : List Char :=
    ((chars.drop 1).take most).takeWhile (NumberText.isDigit 16)
  let plain := next chars
  match chars with
  | c :: _ =>
      if c = 'E' then ([27], 1)
      else if c = '"' then ([34], 1)
      else if c = 'x' ∨ c = 'u' ∨ c = 'U' then
        let digits := hexadecimal (if c = 'x' then 2 else if c = 'u' then 4 else 8)
        if digits.isEmpty then plain
        else if c = 'x' then ([UInt8.ofNat (NumberText.value 16 digits)], digits.length + 1)
        else (unicode digits, digits.length + 1)
      else plain
  | [] => plain

/-- What is written of a text with escapes, and whether `\c` cuts it off; `skip` counts characters
that belong to an escape before. A zero before octal digits is not one of them. -/
def expandFrom (next : List Char → List UInt8 × Nat) (skip : Nat) : List Char → List UInt8 × Bool
  | [] => ([], false)
  | c :: rest =>
      match skip with
      | n + 1 => expandFrom next n rest
      | 0 =>
          if c ≠ '\\' then
            let (bytes, cut) := expandFrom next 0 rest
            (utf8Bytes (String.singleton c) ++ bytes, cut)
          else if rest.head? = some 'c' then ([], true)
          else
            let zero := rest.head? = some '0' ∧ (rest.drop 1).head?.any (NumberText.isDigit 8)
            let (now, used) := next (if zero then rest.drop 1 else rest)
            let (bytes, cut) := expandFrom next (if zero then used + 1 else used) rest
            (now ++ bytes, cut)

/-- What is written of a text with escapes, and whether `\c` cuts it off. -/
def expand (text : String) : List UInt8 × Bool := expandFrom next 0 text.toList

def expandMore (text : String) : List UInt8 × Bool := expandFrom nextMore 0 text.toList

/-- Writes words with blanks between them, the way `echo` does; a first `-n` omits the line feed
at the end. -/
def echo (args : List String) : List UInt8 :=
  let quiet := args.head? = some "-n"
  let (bytes, cut) := expand (String.intercalate " " (if quiet then args.drop 1 else args))
  if cut ∨ quiet then bytes else bytes ++ [10]

end PinnedStack.Escape
