import PinnedStack.Proofs.Places.SecondReading
import PinnedStack.Compile

/-!
# Verification does not depend on places

* `Shape.unplaced`, `Knowledge.unplaced` — a stack of types and what is known, without the places
  that left the words.
* `Shape.verdict_unplaced` — comparing stacks looks at types only.
* `Op.mirrors_verify`, `Node.mirrors_verify` — an operation, and a node of a body.
* `Scanned.mirrors_check` — the program of a text, read and verified.
-/

namespace PinnedStack

/-! ## Stacks -/

def Cell.unplaced (c : Cell) : Cell := { c with origin := .builtin }

@[simp] theorem Cell.unplaced_ty (c : Cell) : c.unplaced.ty = c.ty := rfl

def Shape.unplaced (s : Shape) : Shape := ⟨s.cells.map Cell.unplaced⟩

namespace Shape

variable {s : Shape} {op : String} {p q : Place}

@[simp] theorem size_unplaced (s : Shape) : s.unplaced.size = s.size := List.length_map ..

@[simp] theorem push_unplaced (s : Shape) (t : Ty) (p : Place) :
    (s.push t p).unplaced = s.unplaced.push t .builtin := by
  simp [push, unplaced, Cell.unplaced]

@[simp] theorem pushAll_unplaced (s : Shape) (ts : List Ty) (p : Place) :
    (s.pushAll ts p).unplaced = s.unplaced.pushAll ts .builtin := by
  unfold pushAll
  induction ts generalizing s with
  | nil => rfl
  | cons t ts ih => rw [List.foldl_cons, List.foldl_cons, ih, push_unplaced]

@[simp] theorem ofTys_unplaced (ts : List Ty) (p : Place) :
    (ofTys ts p).unplaced = ofTys ts .builtin := pushAll_unplaced empty ts p

theorem mirrors_require (count : Nat) :
    Mirrors id (s.require op count p) (s.unplaced.require op count .builtin) := by
  unfold require
  rw [size_unplaced]
  split
  · exact .error rfl
  · exact .ok _

theorem mirrors_take (count : Nat) :
    Mirrors (Prod.map (List.map Cell.unplaced) unplaced) (s.take op count p)
      (s.unplaced.take op count .builtin) := by
  unfold take
  rw [size_unplaced]
  split
  · exact .error rfl
  · exact .of_eq (by simp [unplaced])

theorem mirrors_pop :
    Mirrors (Prod.map Cell.unplaced unplaced) (s.pop op p) (s.unplaced.pop op .builtin) := by
  obtain ⟨cells⟩ := s
  cases cells with
  | nil => exact .error rfl
  | cons => exact .ok _

theorem drop_cons (c : Cell) (rest : List Cell) (expected : Ty) :
    (⟨c :: rest⟩ : Shape).drop op expected p
      = if c.ty.fits expected then .ok ⟨rest⟩
        else .error ⟨p, .mismatch op expected.text c.ty.text⟩ := by
  by_cases fits : c.ty.fits expected = true
  · simp [drop, popExpecting, fits]
  · simp [drop, popExpecting, fits]

theorem mirrors_drop (expected : Ty) :
    Mirrors unplaced (s.drop op expected p) (s.unplaced.drop op expected .builtin) := by
  obtain ⟨cells⟩ := s
  cases cells with
  | nil => exact .error rfl
  | cons c rest =>
    have whole : (⟨c :: rest⟩ : Shape).unplaced = ⟨c.unplaced :: rest.map Cell.unplaced⟩ := rfl
    rw [whole, drop_cons, drop_cons]
    exact .choice .rfl (fun _ => .ok _) fun _ => .error rfl

theorem mirrors_dropAll (ts : List Ty) :
    Mirrors unplaced (s.dropAll op p ts) (s.unplaced.dropAll op .builtin ts) := by
  induction ts generalizing s with
  | nil => exact .ok _
  | cons t ts ih =>
    rw [dropAll, dropAll]
    exact (mirrors_drop t).elim (fun _ => ih) fun _ _ => .error

theorem mirrors_dropValue (t : Ty) :
    Mirrors unplaced (s.dropValue op t p) (s.unplaced.dropValue op t .builtin) := by
  unfold dropValue
  exact (mirrors_require t.width).elim (fun _ => mirrors_dropAll _) fun _ _ => .error

/-- **Comparing two stacks looks at their types only.** -/
@[simp] theorem verdict_unplaced (s t : Shape) :
    (s.unplaced.diff t.unplaced).verdict = (s.diff t).verdict := by
  have pairs : s.unplaced.pairs t.unplaced
      = (s.pairs t).map (Prod.map (Option.map Cell.unplaced) (Option.map Cell.unplaced)) := by
    simp [Shape.pairs, bottomFirst, unplaced, ← List.map_reverse, List.zipWithAll_map,
      List.map_zipWithAll]
  have agreeing : agree ∘ Prod.map (Option.map Cell.unplaced) (Option.map Cell.unplaced) = agree := by
    funext ⟨l, r⟩
    cases l with
    | none => rfl
    | some l =>
      cases r with
      | none => rfl
      | some r => rfl
  unfold diff
  simp only [size_unplaced]
  rw [pairs, List.all_map, agreeing]

@[simp] theorem isEqual_unplaced (s t : Shape) :
    (s.unplaced.diff t.unplaced).isEqual = (s.diff t).isEqual := by
  simp [Diff.isEqual]

end Shape

theorem Contract.find?_unplaced (cells : List Cell) (expected : List Ty) :
    ((cells.map Cell.unplaced).zip expected).reverse.find?
        (fun (cell, wanted) => !cell.ty.fits wanted)
      = ((cells.zip expected).reverse.find?
        (fun (cell, wanted) => !cell.ty.fits wanted)).map (Prod.map Cell.unplaced id) := by
  rw [List.zip_map_left, ← List.map_reverse, List.find?_map]
  rfl

theorem Contract.mirrors_applyTo (c : Contract) (s : Shape) (op : String) (p : Place) :
    Mirrors Shape.unplaced (c.applyTo s op p) (c.applyTo s.unplaced op .builtin) := by
  unfold applyTo
  simp only
  refine (Shape.mirrors_take _).elim (fun taken => ?_) fun _ _ => .error
  obtain ⟨cells, rest⟩ := taken
  simp only [Prod.map_apply, find?_unplaced]
  cases (cells.zip (c.inputs.flatMap Ty.words)).reverse.find? _ with
  | some => exact .error rfl
  | none => exact .of_eq (Shape.pushAll_unplaced ..)

/-! ## Knowledge -/

def Knowledge.unplaced (k : Knowledge) : Knowledge := { k with shape := k.shape.unplaced }

namespace Knowledge

variable {k : Knowledge} (p : Pin) (place : Place)

theorem mirrors_tyOf : Mirrors id (k.tyOf p place) (k.unplaced.tyOf p .builtin) := by
  have sightings : k.unplaced.sightings = k.sightings := rfl
  unfold tyOf
  rw [sightings]
  split
  · split
    · exact .ok _
    · exact .error rfl
  · exact .ok _

theorem mirrors_bindPin :
    Mirrors unplaced (k.bindPin p place) (k.unplaced.bindPin p .builtin) := by
  unfold bindPin
  split
  · refine Shape.mirrors_pop.elim (fun popped => ?_) fun _ _ => .error
    exact .choice .rfl (fun _ => .ok _) fun _ => .error rfl
  · exact (Shape.mirrors_dropValue p.ty).elim (fun _ => .ok _) fun _ _ => .error

theorem mirrors_updatePin :
    Mirrors unplaced (k.updatePin p place) (k.unplaced.updatePin p .builtin) := by
  unfold updatePin
  refine (mirrors_tyOf p place).elim (fun ty => ?_) fun _ _ => .error
  simp only [id]
  exact (Shape.mirrors_dropValue ty).elim (fun _ => .ok _) fun _ _ => .error

theorem mirrors_pushPin :
    Mirrors unplaced (k.pushPin p place) (k.unplaced.pushPin p .builtin) := by
  unfold pushPin
  exact (mirrors_tyOf p place).elim (fun _ => .of_eq (by simp [unplaced])) fun _ _ => .error

theorem releasePin_unplaced : (k.releasePin p).unplaced = k.unplaced.releasePin p := by
  unfold releasePin
  split
  · rfl
  · rfl

end Knowledge

/-! ## Operations -/

theorem mirrors_pointee (op : String) (address : Ty) (access : Access) (p q : Place) :
    Mirrors id (pointee op address access p) (pointee op address access q) := by
  unfold pointee
  refine .choice .rfl (fun _ => .error rfl) fun _ => ?_
  split
  · exact .ok _
  · exact .ok _
  · exact .choice .rfl (fun _ => .ok _) fun _ => .error rfl
  · exact .ok _
  · exact .choice .rfl (fun _ => .ok _) fun _ => .error rfl

namespace Op

variable {s : Shape} {place : Place}

theorem mirrors_verifyLoad (op : String) (access : Access) :
    Mirrors Shape.unplaced (verifyLoad op access place s)
      (verifyLoad op access .builtin s.unplaced) := by
  unfold verifyLoad
  refine Shape.mirrors_pop.elim (fun popped => ?_) fun _ _ => .error
  simp only
  exact (mirrors_pointee op popped.1.ty access place .builtin).elim
    (fun _ => .of_eq (Shape.push_unplaced ..)) fun _ _ => .error

theorem mirrors_verifyStore (op : String) (access : Access) :
    Mirrors Shape.unplaced (verifyStore op access place s)
      (verifyStore op access .builtin s.unplaced) := by
  unfold verifyStore
  refine Shape.mirrors_pop.elim (fun popped => ?_) fun _ _ => .error
  simp only
  exact (mirrors_pointee op popped.1.ty access place .builtin).elim
    (fun ty => Shape.mirrors_dropValue ty) fun _ _ => .error

theorem mirrors_verifySyscall (op : String) (arguments : Nat) :
    Mirrors Shape.unplaced (verifySyscall op arguments place s)
      (verifySyscall op arguments .builtin s.unplaced) := by
  unfold verifySyscall
  refine (Shape.mirrors_require _).bind fun _ => ?_
  refine (Shape.mirrors_drop _).bind fun s => ?_
  refine (Shape.mirrors_take _).bind fun taken => ?_
  obtain ⟨cells, rest⟩ := taken
  simp only [Prod.map_apply, List.find?_map, Function.comp_def, Cell.unplaced_ty]
  cases cells.find? fun c => !c.ty.isConcrete with
  | some => exact .error rfl
  | none => exact .of_eq (Shape.push_unplaced ..)

theorem mirrors_verifySum (op : String) (rule : Ty → Ty → Except Fault Ty) :
    Mirrors Shape.unplaced (verifySum op rule place s)
      (verifySum op rule .builtin s.unplaced) := by
  unfold verifySum
  match s with
  | ⟨[]⟩ => exact .error rfl
  | ⟨[_]⟩ => exact .error rfl
  | ⟨b :: a :: rest⟩ =>
    simp only [Shape.unplaced, List.map_cons, Cell.unplaced_ty]
    cases rule a.ty b.ty with
    | ok ty => exact .of_eq (Shape.push_unplaced ..)
    | error => exact .error rfl

theorem mirrors_fixed (op : Op) :
    Mirrors Shape.unplaced (verifyShape.fixed op place s)
      (verifyShape.fixed op .builtin s.unplaced) := Contract.mirrors_applyTo ..

theorem mirrors_verifyShape (op : Op) :
    Mirrors Shape.unplaced (op.verifyShape place s) (op.verifyShape .builtin s.unplaced) := by
  cases op with
  | dup =>
    match s with
    | ⟨[]⟩ => exact .error rfl
    | ⟨_ :: _⟩ => exact .ok _
  | drop =>
    match s with
    | ⟨[]⟩ => exact .error rfl
    | ⟨_ :: _⟩ => exact .ok _
  | swap =>
    match s with
    | ⟨[]⟩ => exact .error rfl
    | ⟨[_]⟩ => exact .error rfl
    | ⟨_ :: _ :: _⟩ => exact .ok _
  | copySecond =>
    match s with
    | ⟨[]⟩ => exact .error rfl
    | ⟨[_]⟩ => exact .error rfl
    | ⟨_ :: _ :: _⟩ => exact .ok _
  | rot =>
    match s with
    | ⟨[]⟩ => exact .error rfl
    | ⟨[_]⟩ => exact .error rfl
    | ⟨[_, _]⟩ => exact .error rfl
    | ⟨_ :: _ :: _ :: _⟩ => exact .ok _
  | binary b =>
    cases b with
    | add => exact mirrors_verifySum _ _
    | sub => exact mirrors_verifySum _ _
    | _ => exact mirrors_fixed _
  | load access =>
    cases access with
    | byte => exact mirrors_fixed _
    | word | record => exact mirrors_verifyLoad _ _
  | store access =>
    cases access with
    | byte => exact mirrors_fixed _
    | word | record => exact mirrors_verifyStore _ _
  | syscall arguments => exact mirrors_verifySyscall _ arguments
  | _ => exact mirrors_fixed _

/-- **An operation is verified alike wherever it stands.** -/
theorem mirrors_verify (op : Op) (k : Knowledge) :
    Mirrors Knowledge.unplaced (op.verify place k) (op.verify .builtin k.unplaced) := by
  unfold verify
  cases op with
  | pin p => exact Knowledge.mirrors_bindPin p place
  | update p => exact Knowledge.mirrors_updatePin p place
  | pinned p => exact Knowledge.mirrors_pushPin p place
  | unpin p => exact .of_eq (Knowledge.releasePin_unplaced p)
  | _ => simp only; exact (mirrors_verifyShape _).elim (fun _ => .ok _) fun _ _ => .error

end Op

/-! ## Blocks -/

/-- What two stacks decide is decided the same way without places. -/
theorem mirrors_compared {α β : Type} {forget : α → β} (before after : Shape) (a : α)
    {d e : Diagnostic} (kind : d.fault.kind = e.fault.kind) :
    Mirrors forget (if (before.diff after).isEqual then .ok a else .error d)
      (if (before.unplaced.diff after.unplaced).isEqual then .ok (forget a) else .error e) := by
  rw [Shape.isEqual_unplaced]
  exact .choice .rfl (fun _ => .ok a) fun _ => .error kind

section Blocks

variable (before after : Shape) (place : Place)

theorem mirrors_checkSingleArm :
    Mirrors id (checkSingleArm before after place)
      (checkSingleArm before.unplaced after.unplaced .builtin) := mirrors_compared before after () rfl

theorem mirrors_checkArms :
    Mirrors id (checkArms before after place)
      (checkArms before.unplaced after.unplaced .builtin) := mirrors_compared before after () rfl

theorem mirrors_checkCondition :
    Mirrors id (checkCondition before after place)
      (checkCondition before.unplaced after.unplaced .builtin) :=
  mirrors_compared before after () rfl

theorem mirrors_checkRound (iterator : Pin) :
    Mirrors id (checkRound iterator before after place)
      (checkRound iterator before.unplaced after.unplaced .builtin) := by
  unfold checkRound
  simp only [Shape.verdict_unplaced]
  cases (before.diff after).verdict with
  | equal => exact .ok _
  | sizeDifference | typeDifference => exact .error rfl

end Blocks

mutual

/-- **A node is verified alike wherever it stands.** -/
theorem Node.mirrors_verify : (n : Node) → (k : Knowledge) →
    Mirrors Knowledge.unplaced (n.verify k) (n.unplaced.verify k.unplaced)
  | .op op place, k => by
    rw [Node.unplaced, Node.verify, Node.verify]
    exact op.mirrors_verify k
  | .call call place, k => by
    rw [Node.unplaced, Node.verify, Node.verify]
    exact (call.contract.mirrors_applyTo k.shape call.name place).bind fun s => .ok _
  | .ifTrue body _ place, k => by
    rw [Node.unplaced, Node.verify, Node.verify]
    refine (Shape.mirrors_drop .number).bind fun s => ?_
    refine (mirrors_verifyAll body { k with shape := s }).bind fun after => ?_
    exact (mirrors_checkSingleArm s after.shape place).bind fun _ => .ok _
  | .ifFalse body _ place, k => by
    rw [Node.unplaced, Node.verify, Node.verify]
    refine (Shape.mirrors_drop .number).bind fun s => ?_
    refine (mirrors_verifyAll body { k with shape := s }).bind fun after => ?_
    exact (mirrors_checkSingleArm s after.shape place).bind fun _ => .ok _
  | .ifElse yes no _ place, k => by
    rw [Node.unplaced, Node.verify, Node.verify]
    refine (Shape.mirrors_drop .number).bind fun s => ?_
    refine (mirrors_verifyAll yes { k with shape := s }).bind fun afterYes => ?_
    refine (mirrors_verifyAll no { afterYes with shape := s }).bind fun afterNo => ?_
    exact (mirrors_checkArms afterYes.shape afterNo.shape place).bind fun _ => .ok _
  | .loop iterator condition body _ place, k => by
    rw [Node.unplaced, Node.verify, Node.verify]
    refine (Knowledge.mirrors_bindPin iterator place).bind fun bound => ?_
    refine (Knowledge.mirrors_pushPin iterator place).bind fun start => ?_
    refine (mirrors_verifyAll condition start).bind fun tested => ?_
    refine (Shape.mirrors_drop .number).bind fun s => ?_
    refine (mirrors_checkCondition bound.shape s place).bind fun _ => ?_
    refine (mirrors_verifyAll body { tested with shape := s }).bind fun after => ?_
    refine (Knowledge.mirrors_pushPin (k := { after with shape := bound.shape }) iterator
      place).bind fun expected => ?_
    refine (mirrors_checkRound expected.shape after.shape place iterator).bind fun _ => ?_
    refine (Knowledge.mirrors_updatePin iterator place).bind fun updated => ?_
    refine (Knowledge.mirrors_pushPin iterator place).bind fun last => ?_
    exact .of_eq (Knowledge.releasePin_unplaced iterator)

theorem mirrors_verifyAll : (ns : List Node) → (k : Knowledge) →
    Mirrors Knowledge.unplaced (verifyAll ns k) (verifyAll (unplacedAll ns) k.unplaced)
  | [], k => by
    rw [unplacedAll, verifyAll, verifyAll]
    exact .ok k
  | n :: ns, k => by
    rw [unplacedAll, verifyAll, verifyAll]
    exact (n.mirrors_verify k).bind fun next => mirrors_verifyAll ns next

end

/-! ## Programs -/

theorem Func.mirrors_verify (f : Func) (sightings : Sightings) :
    Mirrors id (f.verify sightings) (f.unplaced.verify sightings) := by
  unfold verify
  have inputs : Knowledge.unplaced ⟨.ofTys f.contract.inputs f.place, sightings⟩
      = ⟨.ofTys f.contract.inputs .builtin, sightings⟩ := by simp [Knowledge.unplaced]
  have body := mirrors_verifyAll f.body ⟨.ofTys f.contract.inputs f.place, sightings⟩
  rw [inputs] at body
  refine body.bind fun after => ?_
  have outputs : Shape.ofTys f.unplaced.contract.outputs f.unplaced.place
      = (Shape.ofTys f.contract.outputs f.place).unplaced := (Shape.ofTys_unplaced ..).symm
  rw [outputs]
  exact mirrors_compared _ after.shape after.sightings rfl

theorem mirrors_verifyFuncs (fs : List Func) (sightings : Sightings) :
    Mirrors id (verifyFuncs fs sightings) (verifyFuncs (fs.map Func.unplaced) sightings) := by
  induction fs generalizing sightings with
  | nil => exact .ok _
  | cons f fs ih =>
    rw [List.map_cons, verifyFuncs, verifyFuncs]
    exact (f.mirrors_verify sightings).bind ih

theorem Program.mirrors_verify (p : Program) : Mirrors id p.verify p.unplaced.verify := by
  unfold verify
  refine (mirrors_verifyFuncs p.functions .empty).bind fun sightings => ?_
  exact (p.main.mirrors_verify sightings).bind fun _ => .ok _

/-- The verified program that tokens spell, with its data. -/
def Scanned.check (limits : Limits) (text : Scanned) : Except Diagnostic (Program × Tables) := do
  let (program, tables) ← Program.ofTokens limits text
  program.verify
  return (program, tables)

theorem check_of_scanned {limits : Limits} {source file : String} {text : Scanned}
    (scanned : Scanned.ofText source file = .ok text) :
    check limits source file = text.check limits := by
  unfold check Program.ofText
  rw [scanned]
  rfl

/-- **Reading and verifying tokens does not depend on their places.** -/
theorem Scanned.mirrors_check (limits : Limits) (text : Scanned) :
    Mirrors (Prod.map Program.unplaced id) (text.check limits) (text.unplaced.check limits) := by
  unfold check
  refine (Program.mirrors_ofTokens limits text).bind fun read => ?_
  exact read.1.mirrors_verify.bind fun _ => .ok _

end PinnedStack
