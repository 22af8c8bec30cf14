import PinnedStack.Pin
import PinnedStack.Tables

/-!
# Supply

* `Limits` — the sizes of the pin buffer and of the return stack.
* `Supply` — all that is handed out while a program is built: pin slots, numbers for jump labels,
  labels of literals and memories.
-/

namespace PinnedStack

/-- Sizes fixed for one compilation: the words kept for pins, and the bytes kept for return
addresses and saved pins. -/
structure Limits where
  pinCapacity : Nat := 4096
  returnStackBytes : Nat := 65536
deriving DecidableEq

/-- What is handed out while a program is built. -/
structure Supply where
  book : PinBook
  nextLabel : Nat
  tables : Tables
deriving DecidableEq

namespace Supply

def ofLimits (limits : Limits) : Supply := ⟨.empty limits.pinCapacity, 0, .empty⟩

/-- Binds a name for a piece of source text. -/
def pin (s : Supply) (name : String) (ty : Ty) (place : Place) : Except Diagnostic (Pin × Supply) :=
  match s.book.pin name ty with
  | .error fault => .error ⟨place, fault⟩
  | .ok (p, book) => .ok (p, { s with book := book })

/-- Ends the innermost binding of a name and hands out its pin. -/
def unpin (s : Supply) (name : String) : Option Pin × Supply :=
  let (ended, book) := s.book.unpin name
  (ended, { s with book := book })

def find? (s : Supply) (name : String) : Option Pin := s.book.find? name

def nextSlot (s : Supply) : Nat := s.book.nextSlot

/-- A number for the labels of one branch or loop. -/
def label (s : Supply) : Nat × Supply := (s.nextLabel, { s with nextLabel := s.nextLabel + 1 })

/-- The label of a counted string. -/
def literal (s : Supply) (bytes : List UInt8) : String × Supply :=
  let (label, tables) := s.tables.addLiteral bytes
  (label, { s with tables := tables })

/-- The label of a string that ends at its first zero. -/
def terminated (s : Supply) (bytes : List UInt8) : String × Supply := s.literal (bytes ++ [0])

/-- The label of a new memory. -/
def region (s : Supply) (name : String) (size : Nat) : String × Supply :=
  let (label, tables) := s.tables.addRegion name size
  (label, { s with tables := tables })

end Supply

end PinnedStack
