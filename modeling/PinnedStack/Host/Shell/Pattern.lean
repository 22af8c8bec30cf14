import PinnedStack.Host.Tool.Regex

/-!
# Patterns of the shell

* `Glyph` — a character of an expanded word. `Pattern.of` — the pattern that glyphs are.
* `Pattern.isMatch` — does a text match as a whole? `Pattern.startLengths`, `Pattern.endLengths` —
  which of its starts and ends do.
-/

namespace PinnedStack.Shell

/-- A character of an expanded word, or what keeps a word apart from others: `mark` keeps an empty
word, and `cut` ends one. A character is a pattern unless it is quoted, and may separate words. -/
inductive Glyph where
  | char (c : Char) (quoted splits : Bool)
  | mark
  | cut
deriving DecidableEq

def Glyph.text (glyphs : List Glyph) : String :=
  String.ofList (glyphs.filterMap fun g =>
    match g with
    | .char c _ _ => some c
    | _ => none)

inductive PatternItem where
  | char (c : Char)
  | one
  | many
  | set (set : CharSet)
deriving DecidableEq

namespace Pattern

/-- The pattern of characters, each with whether it is quoted; `skip` counts characters that belong
to a set before. -/
def items (skip : Nat) : List (Char × Bool) → List PatternItem
  | [] => []
  | (c, quoted) :: rest =>
      match skip with
      | n + 1 => items n rest
      | 0 =>
          if quoted then .char c :: items 0 rest
          else if c = '*' then .many :: items 0 rest
          else if c = '?' then .one :: items 0 rest
          else if c = '\\' then
            match rest with
            | (d, _) :: _ => .char d :: items 1 rest
            | [] => [.char '\\']
          else if c = '[' then
            match CharSet.at? ['!', '^'] (rest.map (·.1)) with
            | some (s, after) => .set s :: items (rest.length - after.length) rest
            | none => .char c :: items 0 rest
          else .char c :: items 0 rest

def of (glyphs : List Glyph) : List PatternItem :=
  items 0 (glyphs.filterMap fun g =>
    match g with
    | .char c quoted _ => some (c, quoted)
    | _ => none)

/-- Does a text match a pattern as a whole? -/
def isMatch : List PatternItem → List Char → Bool
  | [], [] => true
  | [], _ :: _ => false
  | .many :: rest, [] => isMatch rest []
  | .many :: rest, c :: chars => isMatch rest (c :: chars) || isMatch (.many :: rest) chars
  | _ :: _, [] => false
  | .one :: rest, _ :: chars => isMatch rest chars
  | .char d :: rest, c :: chars => c == d && isMatch rest chars
  | .set s :: rest, c :: chars => s.contains c && isMatch rest chars
termination_by items chars => (items.length, chars.length)

/-- Does a pattern have a part that is no character? -/
def isSpecial (items : List PatternItem) : Bool :=
  items.any fun i =>
    match i with
    | .char _ => false
    | _ => true

/-- The lengths of the starts of a text that match a pattern, from the shortest on. -/
def startLengths (items : List PatternItem) (chars : List Char) : List Nat :=
  (List.range (chars.length + 1)).filter fun n => isMatch items (chars.take n)

/-- The lengths of the ends of a text that match a pattern, from the shortest on. -/
def endLengths (items : List PatternItem) (chars : List Char) : List Nat :=
  (List.range (chars.length + 1)).filter fun n => isMatch items (chars.drop (chars.length - n))

end Pattern

end PinnedStack.Shell
