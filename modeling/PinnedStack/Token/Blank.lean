/-!
# Blanks

* `isBlank` — the characters with the property `White_Space`, twenty-five in all. Words are
  separated by them.
-/

namespace PinnedStack

/-- The ranges of code points with the property `White_Space`, both ends included. -/
def blankRanges : List (Nat × Nat) :=
  [(0x9, 0xD), (0x20, 0x20), (0x85, 0x85), (0xA0, 0xA0), (0x1680, 0x1680), (0x2000, 0x200A),
    (0x2028, 0x2029), (0x202F, 0x202F), (0x205F, 0x205F), (0x3000, 0x3000)]

/-- Does a character separate words? -/
def isBlank (c : Char) : Bool := blankRanges.any fun (low, high) => low ≤ c.toNat && c.toNat ≤ high

example : (blankRanges.map fun (low, high) => high + 1 - low).sum = 25 := by decide

theorem isBlank_newline : isBlank '\n' = true := by decide

end PinnedStack
