import PinnedStack.Code
import PinnedStack.Proofs.Typing.Rules

/-!
# What verification visits

* `Asm.instrsOf`, `extentOf` — the instructions that nodes become, and their number.
* `Visit` — a node with what verification knew when it reached it.
* `Node.visits`, `visitsAll`, `visitsFuncs`, `Program.visits` — all visits in order, up to the node
  that is refused.
-/

namespace PinnedStack

open Asm

/-! ## Instructions -/

namespace Asm

/-- The instruction that a line holds. -/
def Line.instr? : Line → Option Instr
  | .instr i => some i
  | _ => none

/-- The instructions of lines in order. -/
def instrsOf (lines : List Line) : List Instr := lines.filterMap Line.instr?

@[simp] theorem instrsOf_append (a b : List Line) : instrsOf (a ++ b) = instrsOf a ++ instrsOf b := by
  simp [instrsOf]

@[simp] theorem instrsOf_nil : instrsOf [] = [] := rfl

@[simp] theorem instrsOf_instr (i : Instr) (lines : List Line) :
    instrsOf (.instr i :: lines) = i :: instrsOf lines := rfl

@[simp] theorem instrsOf_label (name : String) (lines : List Line) :
    instrsOf (.label name :: lines) = instrsOf lines := rfl

@[simp] theorem instrsOf_comment (text : String) (lines : List Line) :
    instrsOf (.comment text :: lines) = instrsOf lines := rfl

@[simp] theorem instrsOf_blank (lines : List Line) :
    instrsOf (.blank :: lines) = instrsOf lines := rfl

@[simp] theorem instrsOf_instrs (is : List Instr) : instrsOf (instrs is) = is := by
  induction is with
  | nil => rfl
  | cons i is ih => simpa [instrs] using ih

end Asm

/-- The number of instructions of nodes in order. -/
def extentOf (nodes : List Node) : Nat := (instrsOf (linesOf nodes)).length

@[simp] theorem extentOf_nil : extentOf [] = 0 := rfl

theorem extentOf_append (xs ys : List Node) : extentOf (xs ++ ys) = extentOf xs + extentOf ys := by
  simp [extentOf]

theorem extentOf_cons (n : Node) (ns : List Node) :
    extentOf (n :: ns) = (instrsOf n.lines).length + extentOf ns := by
  simp [extentOf, linesOf]

/-! ## Visits -/

/-- What is known once the pin of a loop is bound, and once its value is pushed for the
condition. -/
def Knowledge.enter (k : Knowledge) (iterator : Pin) (place : Place) :
    Except Diagnostic (Knowledge × Knowledge) := do
  let bound ← k.bindPin iterator place
  let start ← bound.pushPin iterator place
  return (bound, start)

/-- What is known where the body of a loop starts, after its condition. -/
def Knowledge.proceed (bound tested : Knowledge) (place : Place) : Except Diagnostic Knowledge := do
  let s ← tested.shape.drop "loop condition" .number place
  checkCondition bound.shape s place
  return { tested with shape := s }

theorem Knowledge.enter_eq_ok {k bound start : Knowledge} {p : Pin} {place : Place} :
    k.enter p place = .ok (bound, start) ↔
      k.bindPin p place = .ok bound ∧ bound.pushPin p place = .ok start := by
  simp only [enter, Except.bind_eq_ok]
  constructor
  · rintro ⟨_, bind, _, push, eq⟩
    cases eq
    exact ⟨bind, push⟩
  · rintro ⟨bind, push⟩
    exact ⟨bound, bind, start, push, rfl⟩

theorem Knowledge.enter_of_dropValue {k : Knowledge} {p : Pin} {place : Place} {below : Shape}
    (static : p.ty.isRuntime = false)
    (top : k.shape.dropValue (pinning p) p.ty place = .ok below) :
    k.enter p place = .ok ({ k with shape := below }, { k with shape := below.push p.ty place }) :=
  enter_eq_ok.2 ⟨(bindPin_eq_ok static).2 ⟨below, top, rfl⟩,
    pushPin_eq_ok.2 ⟨p.ty, tyOf_eq_ok static, rfl⟩⟩

theorem Knowledge.proceed_of_matches (bound : Knowledge) {tested : Knowledge} {s : Shape}
    {place : Place}
    (number : tested.shape.drop "loop condition" .number place = .ok s)
    (same : bound.shape.Matches s) :
    bound.proceed tested place = .ok { tested with shape := s } := by
  simp [proceed, number, checkCondition_eq_ok.2 same, bind, Except.bind, pure, Except.pure]

/-- A node that verification has reached, with what was known there and the number of instructions
of the body in front of it. -/
structure Visit where
  node : Node
  known : Knowledge
  offset : Nat

mutual

/-- The visits that verifying a node makes, that of the node itself first. -/
def Node.visits : Node → Nat → Knowledge → List Visit
  | .op op place, offset, k => [⟨.op op place, k, offset⟩]
  | .call call place, offset, k => [⟨.call call place, k, offset⟩]
  | .ifTrue body label place, offset, k =>
      ⟨.ifTrue body label place, k, offset⟩ ::
        match k.shape.drop "if" .number place with
        | .ok s => visitsAll body (offset + 3) { k with shape := s }
        | .error _ => []
  | .ifFalse body label place, offset, k =>
      ⟨.ifFalse body label place, k, offset⟩ ::
        match k.shape.drop "if" .number place with
        | .ok s => visitsAll body (offset + 3) { k with shape := s }
        | .error _ => []
  | .ifElse yes no label place, offset, k =>
      ⟨.ifElse yes no label place, k, offset⟩ ::
        match k.shape.drop "if" .number place with
        | .ok s =>
            visitsAll yes (offset + 3) { k with shape := s } ++
              match verifyAll yes { k with shape := s } with
              | .ok afterYes => visitsAll no (offset + 4 + extentOf yes) { afterYes with shape := s }
              | .error _ => []
        | .error _ => []
  | .loop iterator condition body label place, offset, k =>
      ⟨.loop iterator condition body label place, k, offset⟩ ::
        match k.enter iterator place with
        | .ok (bound, start) =>
            visitsAll condition (offset + 2 * iterator.ty.width) start ++
              match verifyAll condition start with
              | .ok tested =>
                  match bound.proceed tested place with
                  | .ok round =>
                      visitsAll body (offset + 2 * iterator.ty.width + extentOf condition + 3) round
                  | .error _ => []
              | .error _ => []
        | .error _ => []

/-- The visits that verifying nodes in order makes. -/
def visitsAll : List Node → Nat → Knowledge → List Visit
  | [], _, _ => []
  | n :: ns, offset, k =>
      n.visits offset k ++
        match n.verify k with
        | .ok next => visitsAll ns (offset + (instrsOf n.lines).length) next
        | .error _ => []

end

theorem visitsAll_append (xs ys : List Node) (offset : Nat) (k : Knowledge) :
    visitsAll (xs ++ ys) offset k = visitsAll xs offset k ++
      match verifyAll xs k with
      | .ok middle => visitsAll ys (offset + extentOf xs) middle
      | .error _ => [] := by
  induction xs generalizing offset k with
  | nil => simp [visitsAll, verifyAll]
  | cons n xs ih =>
    simp only [List.cons_append, visitsAll, verifyAll]
    cases n.verify k with
    | error d => simp [bind, Except.bind]
    | ok next => simp [bind, Except.bind, ih, extentOf_cons, Nat.add_assoc]

theorem visitsAll_singleton (n : Node) (offset : Nat) (k : Knowledge) :
    visitsAll [n] offset k = n.visits offset k := by
  simp only [visitsAll]
  cases n.verify k <;> simp

/-- The visits that verifying functions in order makes. -/
def visitsFuncs : List Func → Sightings → List Visit
  | [], _ => []
  | f :: fs, sightings =>
      visitsAll f.body 0 ⟨.ofTys f.contract.inputs f.place, sightings⟩ ++
        match f.verify sightings with
        | .ok next => visitsFuncs fs next
        | .error _ => []

/-- The visits that verifying a program makes. -/
def Program.visits (p : Program) : List Visit := visitsFuncs (p.functions ++ [p.main]) .empty

end PinnedStack
