import PinnedStack.Word

/-!
# Integer literals

* `Numeral.looksNumeric` — a word that is taken for an integer: at most one `-`, then a digit.
* `Numeral.value?` — its value: decimal digits, or `0x` and hexadecimal digits, within 64 bits.
-/

namespace PinnedStack.Numeral

/-- The value of a digit of a radix up to sixteen, in either case. -/
def digit? (radix : Nat) (c : Char) : Option Nat :=
  let value :=
    if '0' ≤ c ∧ c ≤ '9' then c.toNat - '0'.toNat
    else if 'a' ≤ c ∧ c ≤ 'f' then c.toNat - 'a'.toNat + 10
    else if 'A' ≤ c ∧ c ≤ 'F' then c.toNat - 'A'.toNat + 10
    else radix
  if value < radix then some value else none

/-- The number that follows the digits read so far. -/
def digits? (radix : Nat) : (soFar : Nat) → List Char → Option Nat
  | soFar, [] => some soFar
  | soFar, c :: cs =>
      match digit? radix c with
      | some d => digits? radix (soFar * radix + d) cs
      | none => none

/-- One or more digits. -/
def unsigned? (radix : Nat) : List Char → Option Nat
  | [] => none
  | cs => digits? radix 0 cs

/-- One or more digits after an optional sign. -/
def signed? (radix : Nat) : List Char → Option Int
  | '-' :: cs => (unsigned? radix cs).map fun n => -(n : Int)
  | '+' :: cs => (unsigned? radix cs).map Int.ofNat
  | cs => (unsigned? radix cs).map Int.ofNat

/-- A number without the sign in front of the whole word. Hexadecimal digits may bring a sign of
their own, after the `0x`. -/
def magnitude? : List Char → Option Int
  | '0' :: 'x' :: cs => signed? 16 cs
  | '0' :: 'X' :: cs => signed? 16 cs
  | cs => signed? 10 cs

/-- The value of a numeral that fits a word. -/
def value? : List Char → Option Int64
  | '-' :: cs => (magnitude? cs).bind fun n => word? (-n)
  | cs => (magnitude? cs).bind word?

/-- Does a word start like an integer? -/
def looksNumeric : List Char → Bool
  | '-' :: c :: _ => c.isDigit
  | c :: _ => c.isDigit
  | [] => false

end PinnedStack.Numeral
