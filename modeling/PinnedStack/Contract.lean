import PinnedStack.Ty

/-!
# Stack-effect contracts

* `Contract` — the types an operation needs on top of the stack and those it leaves, bottom first.
* `Contract.andThen` — the contract of two operations in a row. What the second needs is matched
  against what the first leaves, from the top; what is missing is asked for below the inputs of
  the first.
-/

namespace PinnedStack

/-- What an operation takes from the stack and leaves on it, bottom first. -/
structure Contract where
  inputs : List Ty
  outputs : List Ty
deriving DecidableEq, Inhabited

namespace Contract

def empty : Contract := ⟨[], []⟩

def isEmpty (c : Contract) : Bool := c.inputs.isEmpty && c.outputs.isEmpty

/-- The form used in messages and comments, such as `( Number Pointer -- Number )`. -/
def text (c : Contract) : String :=
  let spell (ts : List Ty) : String := String.join (ts.map fun t => " " ++ t.text)
  s!"({spell c.inputs} --{spell c.outputs} )"

/-- Takes the `wanted` types off the `available` ones, both top first: what stays available, and
what is still wanted. -/
def settle : (available wanted : List Ty) → Except Fault (List Ty × List Ty)
  | available, [] => .ok (available, [])
  | [], wanted => .ok ([], wanted)
  | a :: available, w :: wanted =>
      if a.fits w then settle available wanted
      else .error (.mismatch "compose" w.text a.text)

/-- `first` and then `second`, value by value. -/
def join (first second : Contract) : Except Fault Contract :=
  match settle first.outputs.reverse second.inputs.reverse with
  | .error fault => .error fault
  | .ok (left, missing) =>
      .ok ⟨missing.reverse ++ first.inputs, left.reverse ++ second.outputs⟩

/-- The contract of running `first` and then `second`. Where a record meets another spelling of
the same words, the border between the two is settled word by word instead. -/
def andThen (first second : Contract) : Except Fault Contract :=
  match first.join second with
  | .ok c => .ok c
  | .error fault =>
      if (first.outputs ++ second.inputs).any Ty.isRecord then
        join ⟨first.inputs, first.outputs.flatMap Ty.words⟩
          ⟨second.inputs.flatMap Ty.words, second.outputs⟩
      else .error fault

@[simp] theorem settle_nil_right (available : List Ty) :
    settle available [] = .ok (available, []) := by
  cases available <;> rfl

@[simp] theorem settle_nil_left (wanted : List Ty) : settle [] wanted = .ok ([], wanted) := by
  cases wanted <;> rfl

end Contract

end PinnedStack
