/-!
# Numbers in arguments

* `NumberText.read` — the number at the start of a text, in the notation of the C language, and the
  characters after it.
* `NumberText.decimal?` — a text that is a number in decimal digits as a whole.
* `NumberText.wrap` — a number as a signed word of 64 bits.
-/

namespace PinnedStack.NumberText

/-- The least and the greatest number of a signed word of 64 bits. -/
def least : Int := -0x8000000000000000
def greatest : Int := 0x7fffffffffffffff

/-- The number of values of a word of 64 bits. -/
def modulus : Int := 0x10000000000000000

/-- A number as a signed word of 64 bits. -/
def wrap (n : Int) : Int := (n + 0x8000000000000000) % modulus - 0x8000000000000000

/-- A signed word of 64 bits as an unsigned one. -/
def unsigned (n : Int) : Nat := (n % modulus).toNat

def digit? (c : Char) : Option Nat :=
  if c.isDigit then some (c.toNat - '0'.toNat)
  else if 'a' ≤ c ∧ c ≤ 'z' then some (c.toNat - 'a'.toNat + 10)
  else if 'A' ≤ c ∧ c ≤ 'Z' then some (c.toNat - 'A'.toNat + 10)
  else none

def isDigit (base : Nat) (c : Char) : Bool := (digit? c).any (· < base)

def value (base : Nat) (digits : List Char) : Nat :=
  digits.foldl (fun n c => n * base + (digit? c).getD 0) 0

/-- Is a character a blank in front of a number? -/
def isBlank (c : Char) : Bool := c == ' ' || ('\t' ≤ c && c ≤ '\x0d')

/-- A number at the start of a text. -/
structure Read where
  value : Int
  found : Bool
  rest : List Char

/-- The digits of a base at the start of a text. -/
def unsignedAt (base : Nat) (chars : List Char) : Option (Nat × List Char) :=
  let digits := chars.takeWhile (isDigit base)
  if digits.isEmpty then none else some (value base digits, chars.drop digits.length)

/-- The number at the start of a text: decimal, octal after a zero, or hexadecimal after `0x`. -/
def naturalAt : List Char → Option (Nat × List Char)
  | '0' :: x :: rest =>
      if x = 'x' ∨ x = 'X' then
        match unsignedAt 16 rest with
        | some found => some found
        | none => some (0, x :: rest)
      else unsignedAt 8 ('0' :: x :: rest)
  | chars => unsignedAt (if chars.head? = some '0' then 8 else 10) chars

/-- Reads a number after blanks and a sign, by a reader of its digits. -/
def signedBy (digits : List Char → Option (Nat × List Char)) (chars : List Char) : Read :=
  let start := chars.dropWhile isBlank
  let (negative, body) := match start with
    | '-' :: rest => (true, rest)
    | '+' :: rest => (false, rest)
    | _ => (false, start)
  match digits body with
  | some (n, rest) => ⟨if negative then -(Int.ofNat n) else Int.ofNat n, true, rest⟩
  | none => ⟨0, false, chars⟩

/-- The number at the start of a text, in the notation of the C language. -/
def read (chars : List Char) : Read := signedBy naturalAt chars

/-- The number that a text is, in decimal digits; blanks may stand around it. -/
def decimal? (text : String) : Option Int :=
  let r := signedBy (unsignedAt 10) text.toList
  if r.found ∧ r.rest.all isBlank then some r.value else none

/-- The number that a text is, in decimal digits and without a sign. -/
def natural? (text : String) : Option Nat :=
  if text = "" ∨ !text.toList.all Char.isDigit then none else some (value 10 text.toList)

def digits (base n : Nat) : List Char := Nat.toDigits base n

end PinnedStack.NumberText
