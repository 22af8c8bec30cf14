/-!
# Places in a source text

* `Place` — file, line and column of a character; lines and columns count characters from 1.
* `Place.text` — the form every message uses, `file:line:column`.
* `Place.after` — the place that follows a character.
-/

namespace PinnedStack

/-- A character's position in a named source text. -/
structure Place where
  line : Nat
  column : Nat
  file : String
deriving DecidableEq, Inhabited

namespace Place

/-- The first character of a file. -/
def start (file : String) : Place := ⟨1, 1, file⟩

/-- Where the definitions that every program starts with stand. -/
def builtin : Place := ⟨0, 0, "<builtin>"⟩

/-- A line feed starts a line; any other character takes one column. -/
def after (p : Place) (c : Char) : Place :=
  if c = '\n' then { p with line := p.line + 1, column := 1 } else { p with column := p.column + 1 }

/-- The form used in messages and in comments of the generated text. -/
def text (p : Place) : String := s!"{p.file}:{p.line}:{p.column}"

@[simp] theorem after_file (p : Place) (c : Char) : (p.after c).file = p.file := by
  unfold after; split <;> rfl

end Place

end PinnedStack
