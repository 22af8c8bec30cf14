import PinnedStack.Host.NumberText
import PinnedStack.Host.Tool.Escape

/-!
# Formatted output

* `Printf.Item` — a part of a format: bytes, or a directive that takes an argument.
* `Printf.items` — the parts of a format.
* `Printf.run` — what is written in a format, which is used as often as there are arguments for it.

Numbers are whole: no directive takes a fraction.
-/

namespace PinnedStack.Printf

/-- A width or a precision, which may be taken from the arguments. -/
inductive Size where
  | fixed (n : Nat)
  | argument
deriving DecidableEq

/-- A directive, with the text that it is written as. -/
structure Directive where
  flags : List Char
  width : Size
  precision : Option Size
  conversion : Char
  text : String

/-- A part of a format; a format may be `cut` within a directive. -/
inductive Item where
  | bytes (bytes : List UInt8)
  | directive (directive : Directive)
  | cut

/-- The size at the start of some characters. -/
def sizeAt (chars : List Char) : Size × List Char :=
  match chars with
  | '*' :: rest => (.argument, rest)
  | _ =>
      let digits := chars.takeWhile Char.isDigit
      (.fixed (NumberText.value 10 digits), chars.drop digits.length)

/-- The directive after a percent sign, and the characters after it. -/
def directiveAt (chars : List Char) : Item × List Char :=
  let flags := chars.takeWhile (['#', '-', '+', ' ', '0'].contains ·)
  let (width, rest) := sizeAt (chars.drop flags.length)
  let (precision, rest) := match rest with
    | '.' :: rest =>
        let (size, rest) := sizeAt rest
        (some size, rest)
    | _ => (none, rest)
  match rest with
  | [] => (.cut, [])
  | c :: after =>
      let text := String.ofList ('%' :: chars.take (chars.length - after.length))
      (.directive ⟨flags, width, precision, c, text⟩, after)

/-- The parts of a format; `fuel` bounds their number, and `more` says whether there are more
escapes than the plain ones. -/
def itemsFrom (more : Bool) (fuel : Nat) (chars : List Char) : List Item :=
  match fuel, chars with
  | 0, _ => []
  | _, [] => []
  | n + 1, '\\' :: rest =>
      let (bytes, used) := if more then Escape.nextMore rest else Escape.next rest
      .bytes bytes :: itemsFrom more n (rest.drop used)
  | n + 1, '%' :: '%' :: rest => .bytes [37] :: itemsFrom more n rest
  | n + 1, '%' :: rest =>
      let (item, after) := directiveAt rest
      item :: itemsFrom more n after
  | n + 1, c :: rest => .bytes (utf8Bytes (String.singleton c)) :: itemsFrom more n rest

/-- The parts of a format; `more` says whether there are more escapes than the plain ones. -/
def items (more : Bool) (format : String) : List Item :=
  itemsFrom more format.length format.toList

/-- What is written so far, and why nothing more is written: an error, or a cut without one. -/
structure Output where
  out : List UInt8
  args : List String
  warnings : List String
  stop : Option (Option String)

namespace Output

def take (o : Output) : String × Output := (o.args.headD "", { o with args := o.args.drop 1 })

def add (o : Output) (bytes : List UInt8) : Output := { o with out := o.out ++ bytes }

def warn (o : Output) (text : String) : Output := { o with warnings := o.warnings ++ [text] }

/-- Warns about what stands after a number. -/
def checked (o : Output) (text : String) (rest : List Char) : Output :=
  if rest.isEmpty then o
  else if rest.length = text.length then o.warn s!"{text}: expected numeric value"
  else o.warn s!"{text}: not completely converted"

/-- Takes an argument that is a number between two bounds. A quote in front of a character means
its code. -/
def takeNumber (o : Output) (low high : Int) : Int × Output :=
  if o.args.isEmpty then (0, o)
  else
    let (text, o) := o.take
    let quoted (rest : List Char) : Int × Output :=
      (((utf8Bytes (String.ofList rest)).headD 0).toNat, o)
    match text.toList with
    | '\'' :: rest => quoted rest
    | '"' :: rest => quoted rest
    | chars =>
        let r := NumberText.read chars
        if low ≤ r.value ∧ r.value ≤ high then (r.value, o.checked text r.rest)
        else (if r.value < low then low else high,
          o.warn s!"{text}: Numerical result out of range")

def takeSize (o : Output) : Size → Int × Output
  | .fixed n => (Int.ofNat n, o)
  | .argument => o.takeNumber NumberText.least NumberText.greatest

end Output

/-- Bytes with blanks up to a width; a negative width fills up at the end. -/
def padded (width : Int) (left : Bool) (bytes : List UInt8) : List UInt8 :=
  let fill := List.replicate (width.natAbs - bytes.length) (32 : UInt8)
  if left ∨ width < 0 then bytes ++ fill else fill ++ bytes

/-- A number with its sign, its mark and its digits, filled with blanks or zeros up to a width. -/
def numberText (flags : List Char) (width : Int) (zeros : Bool) (sign body : String) :
    List UInt8 :=
  let left := flags.contains '-' || decide (width < 0)
  let missing := width.natAbs - (sign.length + body.length)
  if flags.contains '0' && !left && zeros then
    utf8Bytes (sign ++ String.ofList (List.replicate missing '0') ++ body)
  else padded width left (utf8Bytes (sign ++ body))

def signText (flags : List Char) (negative : Bool) : String :=
  if negative then "-"
  else if flags.contains '+' then "+"
  else if flags.contains ' ' then " "
  else ""

/-- The digits of a whole number with a least count. -/
def digitsText (base n : Nat) (precision : Option Int) : String :=
  let digits := if n = 0 ∧ precision = some 0 then [] else NumberText.digits base n
  let least := match precision with
    | some p => p.toNat
    | none => 1
  String.ofList (List.replicate (least - digits.length) '0' ++ digits)

def upper (text : String) : String := text.map Char.toUpper

/-- Writes a directive with the arguments that it takes. -/
def directive (o : Output) (d : Directive) : Output :=
  let (width, o) := o.takeSize d.width
  let (precision, o) : Option Int × Output := match d.precision with
    | none => (none, o)
    | some size =>
        let (n, o) := o.takeSize size
        (if n < 0 then none else some n, o)
  let left := d.flags.contains '-'
  let shortened (bytes : List UInt8) : List UInt8 := match precision with
    | some n => bytes.take n.toNat
    | none => bytes
  let zeros := precision.isNone
  match d.conversion with
  | 's' =>
      let (text, o) := o.take
      o.add (padded width left (shortened (utf8Bytes text)))
  | 'b' =>
      let (text, o) := o.take
      let (bytes, cut) := Escape.expand text
      let o := o.add (padded width left (shortened bytes))
      if cut then { o with stop := some none } else o
  | 'c' =>
      let (text, o) := o.take
      o.add (padded width left [(utf8Bytes text).headD 0])
  | c =>
      if c = 'd' ∨ c = 'i' then
        let (n, o) := o.takeNumber NumberText.least NumberText.greatest
        o.add (numberText d.flags width zeros (signText d.flags (n < 0))
          (digitsText 10 n.natAbs precision))
      else if ['o', 'u', 'x', 'X'].contains c then
        let (n, o) := o.takeNumber (1 - NumberText.modulus) (NumberText.modulus - 1)
        let n := NumberText.unsigned n
        let base := if c = 'o' then 8 else if c = 'u' then 10 else 16
        let digits := digitsText base n precision
        let sharp := d.flags.contains '#'
        let digits := if sharp && c = 'o' && !digits.startsWith "0" then "0" ++ digits else digits
        let mark := if sharp && n ≠ 0 && base = 16 then "0x" else ""
        let capital (text : String) : String := if c = 'X' then upper text else text
        o.add (numberText d.flags width zeros (capital mark) (capital digits))
      else { o with stop := some (some s!"{d.text}: invalid directive") }

def item (o : Output) (part : Item) : Output :=
  match o.stop with
  | some _ => o
  | none =>
      match part with
      | .bytes bytes => o.add bytes
      | .directive d => directive o d
      | .cut => { o with stop := some (some "missing format character") }

/-- Uses a format until no arguments are left, or as often as `rounds` says. -/
def repeated (rounds : Nat) (parts : List Item) (o : Output) : Output :=
  match rounds with
  | 0 => o
  | n + 1 =>
      let next := parts.foldl item o
      if next.stop.isSome ∨ next.args.isEmpty ∨ next.args.length = o.args.length then next
      else repeated n parts next

/-- What is written in a format with arguments; `more` says whether there are more escapes than the
plain ones. -/
def run (more : Bool) (format : String) (args : List String) : Output :=
  repeated (args.length + 1) (items more format) ⟨[], args, [], none⟩

end PinnedStack.Printf
