import PinnedStack.Proofs.Emission.Whole

/-!
# Where the lines of a body come from

* `Node.within`, `nodesIn` — the nodes of a body at any depth.
* `Node.ownLines`, `mem_linesOf` — a line of a body is one that some node adds to those of the nodes
  inside it.
* `Op.pin?`, `Op.label?` — the pin and the label that an operation works on.
* `Operand.isPlain`, `Op.Uses` — an operand of an operation names registers and numbers only, but for
  the slots of its pin and for its label; `Op.uses_of_mem_code`, `Node.uses_of_mem_ownLines`.
* `Program.Holds`, `Program.mem_lines` — the part of a program that a line belongs to.
* `Program.Mentions`, `Program.mentions_of_mem_lines` — the operands of a whole program.
-/

namespace PinnedStack

open Asm

/-! ## Nodes -/

mutual

/-- A node and the nodes inside it, at any depth. -/
def Node.within : Node → List Node
  | .op op place => [.op op place]
  | .call call place => [.call call place]
  | .ifTrue body n place => .ifTrue body n place :: nodesIn body
  | .ifFalse body n place => .ifFalse body n place :: nodesIn body
  | .ifElse yes no n place => .ifElse yes no n place :: (nodesIn yes ++ nodesIn no)
  | .loop p condition body n place =>
      .loop p condition body n place :: (nodesIn condition ++ nodesIn body)

/-- Nodes and the nodes inside them, at any depth. -/
def nodesIn : List Node → List Node
  | [] => []
  | n :: ns => n.within ++ nodesIn ns

end

@[simp] theorem nodesIn_append (xs ys : List Node) :
    nodesIn (xs ++ ys) = nodesIn xs ++ nodesIn ys := by
  induction xs with
  | nil => rfl
  | cons n xs ih => simp [nodesIn, ih]

theorem nodesIn_ops (ops : List Op) (place : Place) :
    nodesIn (ops.map (.op · place)) = ops.map (.op · place) := by
  induction ops with
  | nil => rfl
  | cons op ops ih => simpa [nodesIn, Node.within] using ih

@[simp] theorem nodesIn_pinNodes (pins : List Pin) (place : Place) :
    nodesIn (Reader.pinNodes pins place) = Reader.pinNodes pins place := by
  simpa [Reader.pinNodes, Function.comp_def] using nodesIn_ops (pins.reverse.map .pin) place

@[simp] theorem nodesIn_unpinNodes (pins : List Pin) (place : Place) :
    nodesIn (Reader.unpinNodes pins place) = Reader.unpinNodes pins place := by
  simpa [Reader.unpinNodes, Function.comp_def] using nodesIn_ops (pins.map .unpin) place

/-! ## Lines -/

/-- The lines that a node adds to those of the nodes inside it. -/
def Node.ownLines : Node → List Line
  | .op o _ => instrs o.code
  | .call c _ => .comment s!"call {c.name}" :: instrs c.code
  | .ifTrue _ n place =>
      .comment s!"if ({place.text})" :: instrs testTop
        ++ [.instr (.jump .z (endifLabel n)), .label (endifLabel n)]
  | .ifFalse _ n place =>
      .comment s!"if ({place.text})" :: instrs testTop
        ++ [.instr (.jump .nz (endifLabel n)), .label (endifLabel n)]
  | .ifElse _ _ n place =>
      .comment s!"if ({place.text})" :: instrs testTop
        ++ [.instr (.jump .z (elseLabel n)), .instr (.jmp (endifLabel n)), .label (elseLabel n),
          .label (endifLabel n)]
  | .loop iterator _ _ n place =>
      .comment s!"loop {iterator.name} ({place.text})" :: instrs iterator.storeCode
        ++ .label (loopLabel n) :: instrs iterator.pushCode
        ++ instrs testTop
        ++ .instr (.jump .z (endloopLabel n)) :: instrs iterator.storeCode
        ++ .instr (.jmp (loopLabel n)) :: .label (endloopLabel n) :: instrs iterator.pushCode

mutual

/-- The lines of a node are those that it and the nodes inside it add. -/
theorem Node.mem_lines {line : Line} : (n : Node) →
    (line ∈ n.lines ↔ ∃ m ∈ n.within, line ∈ m.ownLines)
  | .op _ _ => by simp [Node.lines, Node.within, Node.ownLines]
  | .call _ _ => by simp [Node.lines, Node.within, Node.ownLines]
  | .ifTrue body n place => by
    have inner : line ∈ linesOf body ↔ _ := mem_linesOf body
    simp only [Node.lines, Node.within, Node.ownLines, List.mem_append,
      List.mem_cons, inner]
    grind
  | .ifFalse body n place => by
    have inner : line ∈ linesOf body ↔ _ := mem_linesOf body
    simp only [Node.lines, Node.within, Node.ownLines, List.mem_append,
      List.mem_cons, inner]
    grind
  | .ifElse yes no n place => by
    have left : line ∈ linesOf yes ↔ _ := mem_linesOf yes
    have right : line ∈ linesOf no ↔ _ := mem_linesOf no
    simp only [Node.lines, Node.within, Node.ownLines, List.mem_append, or_and_right,
      exists_or, List.mem_cons, left, right]
    grind
  | .loop p condition body n place => by
    have left : line ∈ linesOf condition ↔ _ := mem_linesOf condition
    have right : line ∈ linesOf body ↔ _ := mem_linesOf body
    simp only [Node.lines, Node.within, Node.ownLines, List.mem_append, or_and_right,
      exists_or, List.mem_cons, left, right]
    grind

/-- **The lines of a body are those that its nodes add.** -/
theorem mem_linesOf {line : Line} : (nodes : List Node) →
    (line ∈ linesOf nodes ↔ ∃ m ∈ nodesIn nodes, line ∈ m.ownLines)
  | [] => by simp [linesOf, nodesIn]
  | n :: ns => by
    simp only [linesOf, nodesIn, List.mem_append, or_and_right, exists_or, Node.mem_lines n,
      mem_linesOf ns]

end

/-! ## Operands -/

def Asm.Instr.operands : Instr → List Operand
  | push source => [source]
  | pop target => [target]
  | mov target source => [target, source]
  | movzx target source => [target, source]
  | lea target source => [.reg target, .mem source]
  | arith _ target source => [target, source]
  | unary _ target => [target]
  | cmp left right => [left, right]
  | test left right => [left, right]
  | set _ target => [.low target]
  | cqo | jump _ _ | jmp _ | call _ | ret | syscall => []

/-- The operands of the instruction in a line. -/
def Asm.Line.operands : Line → List Operand
  | instr i => i.operands
  | _ => []

/-- Is it an address that names no label and no pin slot? -/
def Asm.Mem.isPlain : Mem → Bool
  | .at _ => true
  | offset base _ => base != .r15
  | symbol _ => false

/-- Does an operand name no label and no pin slot? The only characters are a digit and a sign. -/
def Asm.Operand.isPlain : Operand → Bool
  | mem m => m.isPlain
  | qword m => m.isPlain
  | byte m => m.isPlain
  | char c => c == '0' || c == '-'
  | address _ => false
  | _ => true

/-- Do the operands of an instruction name no label and no pin slot? -/
def Asm.Instr.isPlain (i : Instr) : Bool := i.operands.all Operand.isPlain

/-- The pin that an operation works on. -/
def Op.pin? : Op → Option Pin
  | .pin p => some p
  | .unpin p => some p
  | .pinned p => some p
  | .update p => some p
  | _ => none

/-- The label whose address an operation pushes. -/
def Op.label? : Op → Option String
  | .string label _ => some label
  | .cstring label => some label
  | .memory label _ => some label
  | _ => none

/-- An operand is one of an operation on the given pin and the given label. -/
def Asm.Operand.Uses (pin : Option Pin) (label : Option String) (o : Operand) : Prop :=
  o.isPlain = true ∨ (∃ p ∈ pin, ∃ slot ∈ p.slots, o = slotOperand slot)
    ∨ ∃ l ∈ label, o = .address l

section Operands

variable {pin : Option Pin} {label : Option String} {is : List Instr}

/-- Instructions that name no label and no pin slot may stand for any operation. -/
theorem uses_of_isPlain (plain : is.all Instr.isPlain = true) :
    ∀ i ∈ is, ∀ o ∈ i.operands, o.Uses pin label :=
  fun i mem o operand => .inl (List.all_eq_true.1 (List.all_eq_true.1 plain i mem) o operand)

theorem isPlain_pushNumber (value : Int64) : (pushNumber value).all Instr.isPlain = true := by
  unfold pushNumber
  split <;> rfl

theorem isPlain_combine (op : Binary) : op.combine.all Instr.isPlain = true := by cases op <;> rfl

theorem Pin.uses_storeCode (p : Pin) :
    ∀ i ∈ p.storeCode, ∀ o ∈ i.operands, o.Uses (some p) label := by
  intro i mem o operand
  obtain ⟨slot, here, rfl⟩ := List.mem_map.1 mem
  obtain rfl := List.mem_singleton.1 operand
  exact .inr (.inl ⟨p, rfl, slot, List.mem_reverse.1 here, rfl⟩)

theorem Pin.uses_pushCode (p : Pin) :
    ∀ i ∈ p.pushCode, ∀ o ∈ i.operands, o.Uses (some p) label := by
  intro i mem o operand
  obtain ⟨slot, here, rfl⟩ := List.mem_map.1 mem
  obtain rfl := List.mem_singleton.1 operand
  exact .inr (.inl ⟨p, rfl, slot, here, rfl⟩)

theorem uses_pushAddress (l : String) :
    ∀ i ∈ pushAddress l, ∀ o ∈ i.operands, o.Uses pin (some l) := by
  simp [pushAddress, Instr.movAddress, Instr.pushReg, Instr.operands, Operand.Uses, Operand.isPlain]

theorem isPlain_loadCode (access : Access) : access.loadCode.all Instr.isPlain = true := by
  cases access with
  | word => rfl
  | byte => rfl
  | record r => simp [Access.loadCode, Instr.isPlain, Instr.operands, Operand.isPlain, Mem.isPlain]

theorem isPlain_storeCode (access : Access) : access.storeCode.all Instr.isPlain = true := by
  cases access with
  | word => rfl
  | byte => rfl
  | record r => simp [Access.storeCode, Instr.isPlain, Instr.operands, Operand.isPlain, Mem.isPlain]

/-- **The operands of an operation name its pin and its label and no other.** -/
theorem Op.uses_of_mem_code (op : Op) :
    ∀ i ∈ op.code, ∀ o ∈ i.operands, o.Uses op.pin? op.label? := by
  cases op with
  | string label length =>
    intro i mem
    rcases List.mem_append.1 mem with mem | mem
    · exact uses_of_isPlain (isPlain_pushNumber _) i mem
    · exact uses_pushAddress label i mem
  | cstring label => exact uses_pushAddress label
  | memory label _ => exact uses_pushAddress label
  | pin p => exact p.uses_storeCode
  | pinned p => exact p.uses_pushCode
  | update p => exact p.uses_storeCode
  | number value => exact uses_of_isPlain (isPlain_pushNumber value)
  | binary op =>
    refine uses_of_isPlain ?_
    simp [Op.code, Binary.code, isPlain_combine, Instr.popReg, Instr.pushReg, Instr.isPlain,
      Instr.operands, Operand.isPlain]
  | load access => exact uses_of_isPlain (by simp [Op.code, isPlain_loadCode]; rfl)
  | store access => exact uses_of_isPlain (by simp [Op.code, isPlain_storeCode]; rfl)
  | field r f =>
    refine uses_of_isPlain ?_
    rw [Op.code]
    split <;> rfl
  | syscall arguments =>
    refine uses_of_isPlain (List.all_eq_true.2 fun i mem => ?_)
    simp only [Op.code, List.mem_append, List.mem_cons, List.not_mem_nil, or_false] at mem
    rcases mem with (rfl | mem) | rfl | rfl
    · rfl
    · obtain ⟨r, -, rfl⟩ := List.mem_map.1 mem
      rfl
    · rfl
    · rfl
  | _ => exact uses_of_isPlain rfl

end Operands

/-! ## Operands of bodies -/

/-- The pin that a node brings into scope: that of a binding or of a loop. -/
def Node.binder? : Node → Option Pin
  | .op (.pin p) _ => some p
  | .loop p _ _ _ _ => some p
  | _ => none

/-- The pin that a node refers to by name. -/
def Node.use? : Node → Option Pin
  | .op (.pinned p) _ => some p
  | .op (.update p) _ => some p
  | _ => none

/-- The pin whose slots a node reads or writes. -/
def Node.pin? (n : Node) : Option Pin := n.binder?.or n.use?

/-- The label whose address a node pushes. -/
def Node.label? : Node → Option String
  | .op o _ => o.label?
  | _ => none

section Bodies

variable {line : Line} {o : Operand}

theorem mem_operands_instrs {is : List Instr} (mem : line ∈ instrs is)
    (operand : o ∈ line.operands) : ∃ i ∈ is, o ∈ i.operands := by
  obtain ⟨i, here, rfl⟩ := List.mem_map.1 mem
  exact ⟨i, here, operand⟩

/-- Instructions between registers and the pointer of the return stack. -/
theorem plain_or_pointer {is : List Instr}
    (all : (is.all fun i => i.operands.all fun o => o.isPlain || o == returnPointer) = true)
    (mem : line ∈ instrs is) (operand : o ∈ line.operands) :
    o.isPlain = true ∨ o = returnPointer := by
  obtain ⟨i, here, operand⟩ := mem_operands_instrs mem operand
  simpa using List.all_eq_true.1 (List.all_eq_true.1 all i here) o operand

/-- **The operands of the lines that a node adds name its pin and its label and no other**, but for
the pointer of the return stack. -/
theorem Node.uses_of_mem_ownLines {n : Node} (mem : line ∈ n.ownLines)
    (operand : o ∈ line.operands) : o = returnPointer ∨ o.Uses n.pin? n.label? := by
  cases n with
  | op operation place =>
    obtain ⟨i, here, operand⟩ := mem_operands_instrs mem operand
    have uses := operation.uses_of_mem_code i here o operand
    cases operation with
    | unpin p => cases here
    | _ => exact .inr uses
  | call c place =>
    rcases List.mem_cons.1 mem with rfl | mem
    · cases operand
    · exact (plain_or_pointer rfl mem operand).symm.imp_right .inl
  | ifTrue body label place =>
    simp only [ownLines, List.cons_append, List.mem_cons, List.mem_append, List.not_mem_nil,
      or_false] at mem
    rcases mem with rfl | mem | rfl | rfl
    · cases operand
    · exact (plain_or_pointer rfl mem operand).symm.imp_right .inl
    · cases operand
    · cases operand
  | ifFalse body label place =>
    simp only [ownLines, List.cons_append, List.mem_cons, List.mem_append, List.not_mem_nil,
      or_false] at mem
    rcases mem with rfl | mem | rfl | rfl
    · cases operand
    · exact (plain_or_pointer rfl mem operand).symm.imp_right .inl
    · cases operand
    · cases operand
  | ifElse yes no label place =>
    simp only [ownLines, List.cons_append, List.mem_cons, List.mem_append, List.not_mem_nil,
      or_false] at mem
    rcases mem with rfl | mem | rfl | rfl | rfl | rfl
    · cases operand
    · exact (plain_or_pointer rfl mem operand).symm.imp_right .inl
    all_goals cases operand
  | loop p condition body label place =>
    have stored : ∀ {line}, line ∈ instrs p.storeCode → o ∈ line.operands →
        o.Uses (some p) none := fun mem operand =>
      have ⟨i, here, operand⟩ := mem_operands_instrs mem operand
      p.uses_storeCode i here o operand
    have pushed : ∀ {line}, line ∈ instrs p.pushCode → o ∈ line.operands →
        o.Uses (some p) none := fun mem operand =>
      have ⟨i, here, operand⟩ := mem_operands_instrs mem operand
      p.uses_pushCode i here o operand
    simp only [ownLines, List.cons_append, List.append_assoc, List.mem_cons, List.mem_append] at mem
    rcases mem with rfl | mem | rfl | mem | mem | rfl | mem | rfl | rfl | mem
    · cases operand
    · exact .inr (stored mem operand)
    · cases operand
    · exact .inr (pushed mem operand)
    · exact (plain_or_pointer rfl mem operand).symm.imp_right .inl
    · cases operand
    · exact .inr (stored mem operand)
    · cases operand
    · cases operand
    · exact .inr (pushed mem operand)

end Bodies

/-! ## Programs -/

section Programs

variable {p : Program} {tables : Tables} {limits : Limits} {line : Line} {o : Operand}

/-- The lines of a function in front of its body. -/
def Func.opening (f : Func) : List Line :=
  [.blank, .comment s!"{f.name} {f.contract.text} ({f.place.text})", .label f.label]
    ++ instrs f.entering

theorem Func.lines_eq (f : Func) : f.lines = f.opening ++ linesOf f.body ++ instrs f.leaving := by
  simp [lines, opening, entering, leaving, instrs]

/-- The lines in front of the main code. -/
def entryOpening : List Line := [.blank, .label "_start"] ++ instrs startCode

def entryEnding : List Line := .comment "exit(0)" :: instrs exitCode

theorem entryLines_eq (main : Func) :
    entryLines main = entryOpening ++ linesOf main.body ++ entryEnding := rfl

def heading : List Line :=
  [.remark "Stoat compiler - generated NASM (x86-64 Linux)", .bits64, .blank, .sectionStart ".text",
    .globalLabel "_start"]

/-- The part of a program that a line belongs to. -/
inductive Program.Holds (p : Program) (tables : Tables) (limits : Limits) (line : Line) : Prop where
  | heading (mem : line ∈ heading)
  | routine (mem : line ∈ Routine.all.flatMap Routine.block)
  | entry (mem : line ∈ entryOpening ++ entryEnding)
  | function {f : Func} (known : f ∈ p.functions) (mem : line ∈ f.opening ++ instrs f.leaving)
  | node {f : Func} {n : Node} (body : f ∈ p.bodies) (inside : n ∈ nodesIn f.body)
      (own : line ∈ n.ownLines)
  | literal (mem : line ∈ tables.literalLines)
  | space (mem : line ∈ tables.spaceLines limits)

theorem infix_flatMap {α : Type} {lines : α → List Line} {as : List α} {a : α} (mem : a ∈ as) :
    lines a <:+: as.flatMap lines :=
  List.infix_of_mem_flatten (List.mem_map_of_mem mem)

/-- The lines of a routine stand in those of the program. -/
theorem Program.infix_block {r : Routine} (mem : r ∈ Routine.all) :
    r.block <:+: p.lines tables limits := by
  refine (infix_flatMap mem).trans ⟨heading, entryLines p.main ++ (p.functions.flatMap Func.lines
    ++ (tables.literalLines ++ tables.spaceLines limits)), ?_⟩
  simp only [lines, heading, List.append_assoc]

theorem Program.infix_lines {f : Func} (mem : f ∈ p.bodies) :
    linesOf f.body <:+: p.lines tables limits := by
  rcases List.mem_append.1 mem with known | here
  · have inner : linesOf f.body <:+: f.lines := ⟨_, _, f.lines_eq.symm⟩
    refine (inner.trans (infix_flatMap known)).trans
      ⟨heading ++ Routine.all.flatMap Routine.block ++ entryLines p.main, tables.literalLines ++ tables.spaceLines limits, ?_⟩
    simp only [lines, heading, List.append_assoc]
  · obtain rfl := List.mem_singleton.1 here
    have inner : linesOf p.main.body <:+: entryLines p.main := ⟨_, _, (entryLines_eq _).symm⟩
    refine inner.trans ⟨heading ++ Routine.all.flatMap Routine.block,
      p.functions.flatMap Func.lines ++ (tables.literalLines ++ tables.spaceLines limits), ?_⟩
    simp only [lines, heading, List.append_assoc]

/-- **Every line of a program belongs to one of its parts.** -/
theorem Program.mem_lines : line ∈ p.lines tables limits ↔ p.Holds tables limits line := by
  have main : p.main ∈ p.bodies := List.mem_append_right _ (List.mem_singleton_self _)
  constructor
  · intro mem
    simp only [lines, List.mem_append, entryLines_eq, List.mem_flatMap, Func.lines_eq] at mem
    rcases mem with ((((mem | mem) | (mem | mem) | mem) | ⟨f, known, (mem | mem) | mem⟩) | mem) | mem
    · exact .heading mem
    · exact .routine (List.mem_flatMap.2 mem)
    · exact .entry (List.mem_append_left _ mem)
    · obtain ⟨n, inside, own⟩ := (mem_linesOf _).1 mem
      exact .node main inside own
    · exact .entry (List.mem_append_right _ mem)
    · exact .function known (List.mem_append_left _ mem)
    · obtain ⟨n, inside, own⟩ := (mem_linesOf _).1 mem
      exact .node (List.mem_append_left _ known) inside own
    · exact .function known (List.mem_append_right _ mem)
    · exact .literal mem
    · exact .space mem
  · intro holds
    cases holds with
    | heading mem => simp only [lines, List.mem_append, or_assoc]; exact .inl mem
    | routine mem => simp only [lines, List.mem_append, or_assoc]; exact .inr (.inl mem)
    | entry mem =>
      have mem : line ∈ entryLines p.main := by
        rw [entryLines_eq, List.append_assoc]
        exact (List.mem_append.1 mem).elim (List.mem_append_left _)
          fun mem => List.mem_append_right _ (List.mem_append_right _ mem)
      simp only [lines, List.mem_append, or_assoc]
      exact .inr (.inr (.inl mem))
    | @function f known mem =>
      have mem : line ∈ f.lines := by
        rw [f.lines_eq, List.append_assoc]
        exact (List.mem_append.1 mem).elim (List.mem_append_left _)
          fun mem => List.mem_append_right _ (List.mem_append_right _ mem)
      simp only [lines, List.mem_append, or_assoc]
      exact .inr (.inr (.inr (.inl (List.mem_flatMap.2 ⟨f, known, mem⟩))))
    | node body inside own =>
      exact (infix_lines body).mem ((mem_linesOf _).2 ⟨_, inside, own⟩)
    | literal mem =>
      simp only [lines, List.mem_append, or_assoc]
      exact .inr (.inr (.inr (.inr (.inl mem))))
    | space mem =>
      simp only [lines, List.mem_append, or_assoc]
      exact .inr (.inr (.inr (.inr (.inr mem))))

/-- The operands of a program. `start` are what the first lines of the main code load, `saved` the
slots that a function saves. -/
inductive Program.Mentions (p : Program) (o : Operand) : Prop where
  | plain (plain : o.isPlain = true)
  | pointer (eq : o = returnPointer)
  | start (mem : o ∈ [.address "pins", .address "ret_stack_end"])
  | node {f : Func} {n : Node} (mem : f ∈ p.bodies) (inside : n ∈ nodesIn f.body)
      (uses : o.Uses n.pin? n.label?)
  | saved {f : Func} {slot : Nat} (mem : f ∈ p.functions) (own : slot ∈ f.slots)
      (eq : o = slotOperand slot)

theorem Program.mentions_of_mem_function {f : Func} (known : f ∈ p.functions)
    (mem : line ∈ f.opening ++ instrs f.leaving) (operand : o ∈ line.operands) : p.Mentions o := by
  have saved : ∀ (make : Operand → Instr) {slots : List Nat}, (∀ o, (make o).operands = [o]) →
      slots ⊆ f.slots → line ∈ instrs (slots.map fun slot => make (slotOperand slot)) →
      p.Mentions o := by
    intro make slots one within mem
    obtain ⟨i, here, operand⟩ := mem_operands_instrs mem operand
    obtain ⟨slot, own, rfl⟩ := List.mem_map.1 here
    exact .saved known (within own) (List.mem_singleton.1 (one _ ▸ operand))
  have pointer : o.isPlain = true ∨ o = returnPointer → p.Mentions o := (·.elim .plain .pointer)
  simp only [Func.opening, Func.entering, Func.leaving, instrs_append, List.mem_append] at mem
  rcases mem with (mem | mem | mem) | (mem | mem) | mem
  · simp only [List.mem_cons, List.not_mem_nil, or_false] at mem
    rcases mem with rfl | rfl | rfl <;> cases operand
  · exact saved .push (fun _ => rfl) (List.Subset.refl _) mem
  · exact pointer (plain_or_pointer rfl mem operand)
  · exact pointer (plain_or_pointer rfl mem operand)
  · exact saved .pop (fun _ => rfl) (List.reverse_subset.2 (List.Subset.refl _)) mem
  · exact pointer (plain_or_pointer rfl mem operand)

/-- The code around the main code works on registers, on the pointer of the return stack and on the
addresses of both stacks. -/
theorem operands_entry : ∀ line ∈ entryOpening ++ entryEnding, ∀ o ∈ line.operands,
    o.isPlain = true ∨ o = returnPointer ∨ o ∈ [.address "pins", .address "ret_stack_end"] := by
  decide

theorem isPlain_routines :
    ∀ line ∈ Routine.all.flatMap Routine.block, ∀ o ∈ line.operands, o.isPlain = true := by
  decide

theorem Tables.no_code (tables : Tables) (limits : Limits)
    (mem : line ∈ tables.literalLines ∨ line ∈ tables.spaceLines limits) (i : Instr) :
    line ≠ .instr i := by
  simp only [Tables.literalLines, Tables.spaceLines, List.mem_append, List.mem_cons,
    List.not_mem_nil, or_false, List.mem_map] at mem
  rcases mem with ((rfl | rfl) | ⟨_, -, rfl⟩) | (rfl | rfl | rfl | rfl | rfl | rfl) | ⟨_, -, rfl⟩ <;>
    nofun

theorem Asm.Line.operands_eq_nil (other : ∀ i, line ≠ .instr i) : line.operands = [] := by
  cases line with
  | instr i => exact absurd rfl (other i)
  | _ => rfl

/-- **What the operands of a program name.** -/
theorem Program.mentions_of_mem_lines (mem : line ∈ p.lines tables limits)
    (operand : o ∈ line.operands) : p.Mentions o := by
  have quiet : line.operands = [] → p.Mentions o := fun none => by simp [none] at operand
  cases mem_lines.1 mem with
  | heading mem =>
    have none : ∀ line ∈ PinnedStack.heading, line.operands = [] := by decide
    exact quiet (none line mem)
  | routine mem => exact .plain (isPlain_routines line mem o operand)
  | entry mem =>
    rcases operands_entry line mem o operand with plain | pointer | start
    · exact .plain plain
    · exact .pointer pointer
    · exact .start start
  | function known mem => exact mentions_of_mem_function known mem operand
  | node body inside own =>
    exact (Node.uses_of_mem_ownLines own operand).elim .pointer (.node body inside)
  | literal mem => exact quiet (Line.operands_eq_nil (tables.no_code limits (.inl mem)))
  | space mem => exact quiet (Line.operands_eq_nil (tables.no_code limits (.inr mem)))

end Programs

end PinnedStack
