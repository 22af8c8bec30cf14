import PinnedStack.Utf8

/-!
# Names in messages

* `Quote.always` — a name in quotes as a shell reads it. `Quote.ifNeeded` — only if it has
  characters that a shell gives a meaning.
-/

namespace PinnedStack.Quote

/-- Three octal digits after a backslash. -/
def octal (b : UInt8) : String :=
  let n := b.toNat
  s!"\\{n / 64 % 8}{n / 8 % 8}{n % 8}"

/-- The letter that names a control character after a backslash. -/
def letter? (b : UInt8) : Option Char :=
  [(7, 'a'), (8, 'b'), (9, 't'), (10, 'n'), (11, 'v'), (12, 'f'), (13, 'r')].lookup b.toNat

/-- A byte that cannot be shown, after a backslash. -/
def escape (b : UInt8) : String :=
  match letter? b with
  | some c => "\\" ++ String.singleton c
  | none => octal b

def isShown (b : UInt8) : Bool := 32 ≤ b && b < 127

/-- Does a character mean something to a shell wherever it stands? -/
def isSpecial (c : Char) : Bool := "!\"$&'()*;<=>[^\x60|\\ ".toList.contains c || c == '?'

/-- May a character stand between double quotes without a meaning there? -/
def isDouble (c : Char) : Bool := c.isAlphanum || "%+,-./:]_ '".toList.contains c

/-- A run of bytes that are shown, between single quotes, or of others, as escapes. -/
def runs : Bool → List UInt8 → String
  | true, [] => "'"
  | false, [] => ""
  | true, b :: rest =>
      if b = 39 then "'\\''" ++ runs true rest
      else if isShown b then String.singleton (Char.ofNat b.toNat) ++ runs true rest
      else "'$'" ++ escape b ++ (if rest.head?.all isShown then "'" else "") ++ runs false rest
  | false, b :: rest =>
      if isShown b then
        "'" ++ (if b = 39 then "\\''" else String.singleton (Char.ofNat b.toNat)) ++ runs true rest
      else escape b ++ (if rest.head?.all isShown then "'" else "") ++ runs false rest

/-- A name in quotes as a shell reads it. -/
def always (name : String) : String :=
  if name.toList.contains '\'' && name.toList.all isDouble then s!"\"{name}\""
  else "'" ++ runs true (utf8Bytes name)

/-- A name in quotes if a shell would not read it as it is. -/
def ifNeeded (name : String) : String :=
  let chars := name.toList
  let atStart := match chars with
    | ['\x7b'] => true
    | ['\x7d'] => true
    | c :: _ => c == '#' || c == '~'
    | [] => true
  if atStart || chars.any isSpecial || (utf8Bytes name).any (!isShown ·) then always name else name

end PinnedStack.Quote
