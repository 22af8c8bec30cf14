import PinnedStack.Reader
import PinnedStack.Verify
import PinnedStack.Code

/-!
# From source text to assembly text

* `check` — reads and verifies a text. `compile` — the assembly text of a verified one.
-/

namespace PinnedStack

/-- The verified program of a text, with its data. -/
def check (limits : Limits) (text file : String) : Except Diagnostic (Program × Tables) := do
  let (program, tables) ← Program.ofText limits text file
  program.verify
  return (program, tables)

/-- The assembly text of a source text. -/
def compile (limits : Limits) (text file : String) : Except Diagnostic String := do
  let (program, tables) ← check limits text file
  return program.asm tables limits

end PinnedStack
