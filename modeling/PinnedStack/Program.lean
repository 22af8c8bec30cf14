import PinnedStack.Op

/-!
# Programs

* `Node` — a piece of a body: an operation, a call, a branch or a loop.
* `Func` — a body with its contract and the pin slots it uses.
* `Program` — the functions and the code that runs first.
-/

namespace PinnedStack

/-- A call whose callee is known by its assembly label. -/
structure Call where
  label : String
  name : String
  contract : Contract
deriving DecidableEq

/-- A piece of a body. Branches and loops carry the number that their jump labels use. `ifTrue` runs
its body unless the condition is zero, `ifFalse` if it is. A loop keeps the top value in a pin and
runs its body while the condition, which starts from the pin's value, is not zero; each round ends
with the pin's next value. -/
inductive Node where
  | op (op : Op) (place : Place)
  | call (call : Call) (place : Place)
  | ifTrue (body : List Node) (label : Nat) (place : Place)
  | ifFalse (body : List Node) (label : Nat) (place : Place)
  | ifElse (yes no : List Node) (label : Nat) (place : Place)
  | loop (iterator : Pin) (condition body : List Node) (label : Nat) (place : Place)

/-- Where a node stands in the source. -/
def Node.place : Node → Place
  | op _ place => place
  | call _ place => place
  | ifTrue _ _ place => place
  | ifFalse _ _ place => place
  | ifElse _ _ _ place => place
  | loop _ _ _ _ place => place

/-- A function: its assembly label, name and contract, whether its inputs have names, so that the
body starts by pinning them, the body itself, and the slots pinned in it. -/
structure Func where
  label : String
  name : String
  contract : Contract
  named : Bool
  body : List Node
  firstSlot : Nat
  endSlot : Nat
  place : Place

/-- The slots a function pins, which it has to give back as it found them. -/
def Func.slots (f : Func) : List Nat := List.range' f.firstSlot (f.endSlot - f.firstSlot)

/-- A whole program: its functions in the order of their definitions, and the code outside all
definitions, which takes and leaves nothing. -/
structure Program where
  functions : List Func
  main : Func

end PinnedStack
