/-!
# Assembly text

* `Row` — the ways a line of assembly text is laid out.
* `Row.text` — the text of a row, which ends in a line feed.
* `listing` — the text of rows in order.
-/

namespace PinnedStack.Asm

/-- A line of assembly text. A `raw` text is laid out already and may hold several lines. -/
inductive Row where
  | instr (text : String)
  | label (name : String)
  | comment (text : String)
  | blank
  | raw (text : String)
deriving DecidableEq

def Row.text : Row → String
  | instr text => s!"    {text}\n"
  | label name => s!"{name}:\n"
  | comment text => s!"    ; {text}\n"
  | blank => "\n"
  | raw text => if text.toList.getLast? = some '\n' then text else text ++ "\n"

def listing (rows : List Row) : String := String.join (rows.map Row.text)

theorem listing_append (a b : List Row) : listing (a ++ b) = listing a ++ listing b := by
  simp [listing]

end PinnedStack.Asm
