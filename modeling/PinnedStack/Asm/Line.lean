import PinnedStack.Asm.Listing
import PinnedStack.Asm.Instr

/-!
# Lines of a program

* `Line` — what the lines of an emitted program say: instructions, labels, data and remarks.
* `Line.row` — how each is laid out. `textOf` — the text of lines in order.
* `Line.defines?` — the label that a line defines.
-/

namespace PinnedStack.Asm

inductive Space where
  | bytes
  | words
deriving DecidableEq

/-- A line of an emitted program. A `comment` is indented and a `remark` is not; `bytes` is labelled
data and `reserve` labelled space filled with zeros. -/
inductive Line where
  | instr (i : Instr)
  | label (name : String)
  | comment (text : String)
  | remark (text : String)
  | blank
  | bits64
  | sectionStart (name : String)
  | globalLabel (name : String)
  | bytes (label : String) (values : List UInt8)
  | reserve (label : String) (space : Space) (count : Nat) (note : Option String)
deriving DecidableEq

/-- The directive that reserves space. -/
def Space.text : Space → String
  | bytes => "resb"
  | words => "resq"

namespace Line

/-- The operand of `db`. At least one byte is stored. -/
def bytesText (values : List UInt8) : String :=
  if values.isEmpty then "0" else String.intercalate ", " (values.map fun b => toString b.toNat)

/-- How a line is laid out. -/
def row : Line → Row
  | instr i => .instr i.text
  | label name => .label name
  | comment text => .comment text
  | remark text => .raw s!"; {text}"
  | blank => .blank
  | bits64 => .raw "bits 64"
  | sectionStart name => .raw s!"section {name}"
  | globalLabel name => .raw s!"global {name}"
  | bytes name values =>
      let operand := bytesText values
      .raw s!"{name}: db {operand}"
  | reserve name space count none => .raw s!"{name}: {space.text} {count}"
  | reserve name space count (some note) => .raw s!"{name}: {space.text} {count} ; {note}"

/-- The label that a line defines. -/
def defines? : Line → Option String
  | label name => some name
  | bytes name _ => some name
  | reserve name _ _ _ => some name
  | _ => none

end Line

def textOf (lines : List Line) : String := listing (lines.map Line.row)

theorem textOf_append (a b : List Line) : textOf (a ++ b) = textOf a ++ textOf b := by
  simp [textOf, listing_append]

def instrs (is : List Instr) : List Line := is.map .instr

end PinnedStack.Asm
