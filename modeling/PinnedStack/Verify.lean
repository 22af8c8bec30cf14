import PinnedStack.Program
import PinnedStack.Shape

/-!
# Verification

A program is run on the abstract stack before any code is made for it.

* `Knowledge` — what is known at a point of a body: the stack of types, and the types that runtime
  pins hold.
* `Op.verify` — one operation. Fixed effects follow their contract; the others look at the types.
* `Node.verify` / `verifyAll` — calls follow the callee's contract, the arms of a branch have to
  leave equal stacks, and a loop has to leave the stack as its first round found it.
* `Func.verify` / `Program.verify` — a body against its contract, and all bodies of a program.
-/

namespace PinnedStack

/-- What is known at a point of a body. -/
structure Knowledge where
  shape : Shape
  sightings : Sightings
deriving DecidableEq

namespace Knowledge

/-- The type that a pin holds; that of a runtime pin is the one it was bound to. -/
def tyOf (k : Knowledge) (p : Pin) (place : Place) : Except Diagnostic Ty :=
  if p.ty.isRuntime then
    match k.sightings.current? p.name with
    | some ty => .ok ty
    | none => .error ⟨place, .unresolved p.name⟩
  else .ok p.ty

/-- How messages name the binding of a pin. -/
def pinning (p : Pin) : String := s!"pin {p.name}"

/-- Takes a value off the stack into a pin. A runtime pin takes one number or address, whichever is
there, and keeps its type in mind. -/
def bindPin (k : Knowledge) (p : Pin) (place : Place) : Except Diagnostic Knowledge :=
  if p.ty.isRuntime then
    match k.shape.pop (pinning p) place with
    | .error d => .error d
    | .ok (c, rest) =>
        if c.ty.isConcrete then .ok ⟨rest, k.sightings.record p.name c.ty⟩
        else .error ⟨place, .mismatch (pinning p) "a Number or Pointer" c.ty.text⟩
  else
    match k.shape.dropValue (pinning p) p.ty place with
    | .ok rest => .ok { k with shape := rest }
    | .error d => .error d

/-- Takes a value off the stack into a pin that is bound already; its type stays. -/
def updatePin (k : Knowledge) (p : Pin) (place : Place) : Except Diagnostic Knowledge :=
  match k.tyOf p place with
  | .error d => .error d
  | .ok ty =>
      match k.shape.dropValue (pinning p) ty place with
      | .ok rest => .ok { k with shape := rest }
      | .error d => .error d

/-- Pushes the value of a pin. -/
def pushPin (k : Knowledge) (p : Pin) (place : Place) : Except Diagnostic Knowledge :=
  match k.tyOf p place with
  | .ok ty => .ok { k with shape := k.shape.push ty place }
  | .error d => .error d

/-- Ends the binding of a pin. -/
def releasePin (k : Knowledge) (p : Pin) : Knowledge :=
  if p.ty.isRuntime then { k with sightings := k.sightings.release p.name } else k

end Knowledge

/-! ## Operations -/

/-- The type of what an access through an address moves. -/
def pointee (op : String) (address : Ty) (access : Access) (place : Place) : Except Diagnostic Ty :=
  let refuse (expected found : String) : Except Diagnostic Ty :=
    .error ⟨place, .mismatch op expected found⟩
  if !address.isPointer then refuse "a pointer" address.text
  else
    match access, address.target? with
    | .byte, _ => .ok .number
    | .word, none => .ok .number
    | .word, some target =>
        if target.width = 1 then .ok target
        else
          let name := target.text
          refuse "a pointer to a single word" s!"*{name} (use {name}@ / {name}! instead)"
    | .record r, none => .ok (.ofRecord r)
    | .record r, some target =>
        if target.fits (.ofRecord r) then .ok (.ofRecord r)
        else refuse (Ty.pointerTo (.ofRecord r)).text address.text

namespace Op

/-- Replaces the address on top by what it leads to. -/
def verifyLoad (op : String) (access : Access) (place : Place) (s : Shape) :
    Except Diagnostic Shape :=
  match s.pop op place with
  | .error d => .error d
  | .ok (address, rest) =>
      match pointee op address.ty access place with
      | .ok ty => .ok (rest.push ty place)
      | .error d => .error d

/-- Takes off the address on top and the value that goes there. -/
def verifyStore (op : String) (access : Access) (place : Place) (s : Shape) :
    Except Diagnostic Shape :=
  match s.pop op place with
  | .error d => .error d
  | .ok (address, rest) =>
      match pointee op address.ty access place with
      | .ok ty => rest.dropValue op ty place
      | .error d => .error d

/-- Takes off the number of a system call and its arguments, and pushes the result. -/
def verifySyscall (op : String) (arguments : Nat) (place : Place) (s : Shape) :
    Except Diagnostic Shape := do
  s.require op (arguments + 1) place
  let s ← s.drop op .number place
  let (cells, rest) ← s.take op arguments place
  match cells.find? fun c => !c.ty.isConcrete with
  | some c => .error ⟨place, .mismatch op "a Number or Pointer argument" c.ty.text⟩
  | none => .ok (rest.push .number place)

/-- Replaces the top two words by what a rule makes of their types. -/
def verifySum (op : String) (rule : Ty → Ty → Except Fault Ty) (place : Place) (s : Shape) :
    Except Diagnostic Shape :=
  match s.cells with
  | b :: a :: rest =>
      match located place (rule a.ty b.ty) with
      | .ok ty => .ok ((⟨rest⟩ : Shape).push ty place)
      | .error d => .error d
  | _ => .error (s.lacking op 2 place)

/-- The stack after an operation that concerns no pin. -/
def verifyShape (op : Op) (place : Place) (s : Shape) : Except Diagnostic Shape :=
  match op, s.cells with
  | dup, a :: rest => .ok ⟨a :: a :: rest⟩
  | dup, _ => .error (s.lacking op.name 1 place)
  | drop, _ :: rest => .ok ⟨rest⟩
  | drop, _ => .error (s.lacking op.name 1 place)
  | swap, b :: a :: rest => .ok ⟨a :: b :: rest⟩
  | swap, _ => .error (s.lacking op.name 2 place)
  | copySecond, b :: a :: rest => .ok ⟨a :: b :: a :: rest⟩
  | copySecond, _ => .error (s.lacking op.name 2 place)
  | rot, c :: b :: a :: rest => .ok ⟨a :: c :: b :: rest⟩
  | rot, _ => .error (s.lacking op.name 3 place)
  | binary .add, _ => verifySum op.name Ty.plus place s
  | binary .sub, _ => verifySum op.name Ty.minus place s
  | load .byte, _ => fixed
  | load access, _ => verifyLoad op.name access place s
  | store .byte, _ => fixed
  | store access, _ => verifyStore op.name access place s
  | syscall arguments, _ => verifySyscall op.name arguments place s
  | _, _ => fixed
where
  fixed : Except Diagnostic Shape := (op.contract?.getD .empty).applyTo s op.name place

def verify (op : Op) (place : Place) (k : Knowledge) : Except Diagnostic Knowledge :=
  match op with
  | pin p => k.bindPin p place
  | update p => k.updatePin p place
  | pinned p => k.pushPin p place
  | unpin p => .ok (k.releasePin p)
  | op =>
      match op.verifyShape place k.shape with
      | .ok s => .ok { k with shape := s }
      | .error d => .error d

end Op

/-! ## Blocks -/

/-- The arm of an `if` without another has to leave the stack as it was. -/
def checkSingleArm (before after : Shape) (place : Place) : Except Diagnostic Unit :=
  let diff := before.diff after
  if diff.isEqual then .ok ()
  else
    let message :=
      s!"a single-armed `if` must leave the stack unchanged: {before.counted} before, "
        ++ s!"{after.counted} after"
    .error ⟨place, .branchShape message diff.report⟩

/-- Both arms of an `if` have to leave the same stack. -/
def checkArms (yes no : Shape) (place : Place) : Except Diagnostic Unit :=
  let diff := yes.diff no
  if diff.isEqual then .ok ()
  else
    let message :=
      s!"`if` arms disagree: yes leaves {yes.counted}, else leaves {no.counted}"
    .error ⟨place, .branchShape message diff.report⟩

/-- The condition of a loop has to use up the pin's value and leave one number, which is gone. -/
def checkCondition (before after : Shape) (place : Place) : Except Diagnostic Unit :=
  let diff := before.diff after
  if diff.isEqual then .ok ()
  else
    let message :=
      s!"loop condition must consume the iterator and leave one Number: expected {before.text} "
        ++ s!"before the result, found {after.text}"
    .error ⟨place, .loopShape message diff.report⟩

/-- The body of a loop has to leave the pin's next value. -/
def checkRound (iterator : Pin) (expected after : Shape) (place : Place) :
    Except Diagnostic Unit :=
  let diff := expected.diff after
  let refuse (message : String) : Except Diagnostic Unit :=
    .error ⟨place, .loopShape message diff.report⟩
  match diff.verdict with
  | .equal => .ok ()
  | .sizeDifference =>
      refuse (s!"loop body must leave exactly the next `{iterator.name}` on top: "
        ++ s!"expected {expected.size} word(s), found {after.size}")
  | .typeDifference =>
      refuse s!"loop body changes the stack types: expected {expected.text}, found {after.text}"

mutual

def Node.verify : Node → Knowledge → Except Diagnostic Knowledge
  | .op op place, k => op.verify place k
  | .call call place, k => do
      let s ← call.contract.applyTo k.shape call.name place
      return { k with shape := s }
  | .ifTrue body _ place, k => do
      let s ← k.shape.drop "if" .number place
      let after ← verifyAll body { k with shape := s }
      checkSingleArm s after.shape place
      return after
  | .ifFalse body _ place, k => do
      let s ← k.shape.drop "if" .number place
      let after ← verifyAll body { k with shape := s }
      checkSingleArm s after.shape place
      return after
  | .ifElse yes no _ place, k => do
      let s ← k.shape.drop "if" .number place
      let afterYes ← verifyAll yes { k with shape := s }
      let afterNo ← verifyAll no { afterYes with shape := s }
      checkArms afterYes.shape afterNo.shape place
      return { afterNo with shape := afterYes.shape }
  | .loop iterator condition body _ place, k => do
      let bound ← k.bindPin iterator place
      let start ← bound.pushPin iterator place
      let tested ← verifyAll condition start
      let s ← tested.shape.drop "loop condition" .number place
      checkCondition bound.shape s place
      let after ← verifyAll body { tested with shape := s }
      let expected ← { after with shape := bound.shape }.pushPin iterator place
      checkRound iterator expected.shape after.shape place
      let updated ← after.updatePin iterator place
      let last ← updated.pushPin iterator place
      return last.releasePin iterator

def verifyAll : List Node → Knowledge → Except Diagnostic Knowledge
  | [], k => .ok k
  | n :: ns, k => do
      let next ← n.verify k
      verifyAll ns next

end

/-! ## Programs -/

/-- Verifies that a body turns the declared inputs into the declared outputs. -/
def Func.verify (f : Func) (sightings : Sightings) : Except Diagnostic Sightings := do
  let after ← verifyAll f.body ⟨.ofTys f.contract.inputs f.place, sightings⟩
  let expected := Shape.ofTys f.contract.outputs f.place
  let diff := expected.diff after.shape
  if diff.isEqual then return after.sightings
  else .error ⟨f.place, .contract f.name expected.text after.shape.text diff.report⟩

def verifyFuncs : List Func → Sightings → Except Diagnostic Sightings
  | [], sightings => .ok sightings
  | f :: fs, sightings => do
      let next ← f.verify sightings
      verifyFuncs fs next

/-- Verifies the functions and then the code outside them. -/
def Program.verify (p : Program) : Except Diagnostic Unit := do
  let sightings ← verifyFuncs p.functions .empty
  let _ ← p.main.verify sightings
  return ()

end PinnedStack
