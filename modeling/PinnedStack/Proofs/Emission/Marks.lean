import PinnedStack.Proofs.Emission.Labels

/-!
# Emitted lines with stack levels

* `Mark` — a function with a number of words on its part of the data stack.
* `Node.marked`, `Func.marked`, `Program.marked` — the emitted lines, each instruction with the mark
  that holds in front of it. Instructions that run while `rsp` is elsewhere have none.
* `Program.marked_lines` — without the marks these are the lines of the program.
* `Placed` — where a part of the lines stands; `Cut` — a position with its mark.
-/

namespace PinnedStack

open Asm

/-! ## Levels -/

def Contract.takes (c : Contract) : Nat := (c.inputs.flatMap Ty.words).length

def Contract.leaves (c : Contract) : Nat := (c.outputs.flatMap Ty.words).length

/-- The words on the data stack after an instruction, from those before it. -/
def Asm.Instr.levelAfter (h : Nat) : Instr → Nat
  | .push _ => h + 1
  | .pop _ => h - 1
  | .arith .add (.reg .rsp) _ => h - 1
  | _ => h

/-- The words from the top of the stack to the end of eight bytes of memory. -/
def Asm.Mem.reach : Mem → Nat
  | .at .rsp => 1
  | .offset .rsp bytes => (bytes + 15) / 8
  | _ => 0

/-- The words from the top of the stack to the end of an operand. -/
def Asm.Operand.reach : Operand → Nat
  | .mem m => m.reach
  | .qword m => m.reach
  | .byte m => m.reach
  | _ => 0

/-- The words of the stack that an instruction reads or takes, as counted from the top. -/
def Asm.Instr.needs : Instr → Nat
  | .push source => source.reach
  | .pop _ => 1
  | .mov target source => max target.reach source.reach
  | .movzx target source => max target.reach source.reach
  | .arith .add (.reg .rsp) (.imm n) => (n.toNat + 7) / 8
  | .arith _ target source => max target.reach source.reach
  | .unary _ target => target.reach
  | .cmp left right => max left.reach right.reach
  | .test left right => max left.reach right.reach
  | .ret => 1
  | _ => 0

/-- The words on the data stack after instructions. -/
def codeAfter : List Instr → Nat → Nat
  | [], h => h
  | i :: is, h => codeAfter is (i.levelAfter h)

theorem codeAfter_append (a b : List Instr) (h : Nat) :
    codeAfter (a ++ b) h = codeAfter b (codeAfter a h) := by
  induction a generalizing h with
  | nil => rfl
  | cons i a ih => exact ih _

theorem codeAfter_pushes (sources : List Operand) (h : Nat) :
    codeAfter (sources.map .push) h = h + sources.length := by
  induction sources generalizing h with
  | nil => rfl
  | cons s sources ih =>
    rw [List.map_cons, codeAfter, ih, Asm.Instr.levelAfter, List.length_cons]
    omega

theorem codeAfter_pops (targets : List Operand) (h : Nat) :
    codeAfter (targets.map .pop) h = h - targets.length := by
  induction targets generalizing h with
  | nil => rfl
  | cons t targets ih =>
    rw [List.map_cons, codeAfter, ih, Asm.Instr.levelAfter, List.length_cons]
    omega

theorem codeAfter_storeCode (p : Pin) (h : Nat) : codeAfter p.storeCode h = h - p.ty.width := by
  have pops : p.storeCode = (p.slots.reverse.map slotOperand).map .pop := by
    simp [Pin.storeCode, Function.comp_def]
  rw [pops, codeAfter_pops]
  simp

theorem codeAfter_pushCode (p : Pin) (h : Nat) : codeAfter p.pushCode h = h + p.ty.width := by
  have pushes : p.pushCode = (p.slots.map slotOperand).map .push := by
    simp [Pin.pushCode, Function.comp_def]
  rw [pushes, codeAfter_pushes]
  simp

mutual

/-- The words on the data stack after a node. -/
def Node.after (h : Nat) : Node → Nat
  | .op op _ => codeAfter op.code h
  | .call call _ => h - call.contract.takes + call.contract.leaves
  | .ifTrue _ _ _ => h - 1
  | .ifFalse _ _ _ => h - 1
  | .ifElse yes _ _ _ => levelOf yes (h - 1)
  | .loop iterator _ _ _ _ => h - iterator.ty.width + iterator.ty.width

/-- The words on the data stack after nodes. -/
def levelOf : List Node → Nat → Nat
  | [], h => h
  | n :: ns, h => levelOf ns (n.after h)

end

/-! ## Marked lines -/

/-- A function with the words on its part of the data stack. -/
abbrev Mark := Func × Nat

/-- A line with the mark in front of it. -/
abbrev MarkedLine := Line × Option Mark

def unmarked (lines : List Line) : List MarkedLine := lines.map (·, none)

def markFirst (m : Mark) : List Line → List MarkedLine
  | [] => []
  | l :: ls => (l, some m) :: unmarked ls

/-- Instructions that keep to the data stack. -/
def markCode (f : Func) : List Instr → Nat → List MarkedLine
  | [], _ => []
  | i :: is, h => (.instr i, some (f, h)) :: markCode f is (i.levelAfter h)

mutual

def Node.marked (f : Func) (h : Nat) : Node → List MarkedLine
  | .op op _ => markCode f op.code h
  | .call call _ => (.comment s!"call {call.name}", none) :: markFirst (f, h) (instrs call.code)
  | .ifTrue body n place =>
      (.comment s!"if ({place.text})", none) :: markCode f testTop h
        ++ (.instr (.jump .z (endifLabel n)), some (f, h - 1)) :: markedOf f body (h - 1)
        ++ [(.label (endifLabel n), none)]
  | .ifFalse body n place =>
      (.comment s!"if ({place.text})", none) :: markCode f testTop h
        ++ (.instr (.jump .nz (endifLabel n)), some (f, h - 1)) :: markedOf f body (h - 1)
        ++ [(.label (endifLabel n), none)]
  | .ifElse yes no n place =>
      (.comment s!"if ({place.text})", none) :: markCode f testTop h
        ++ (.instr (.jump .z (elseLabel n)), some (f, h - 1)) :: markedOf f yes (h - 1)
        ++ (.instr (.jmp (endifLabel n)), some (f, levelOf yes (h - 1))) ::
          (.label (elseLabel n), none) :: markedOf f no (h - 1)
        ++ [(.label (endifLabel n), none)]
  | .loop iterator condition body n place =>
      (.comment s!"loop {iterator.name} ({place.text})", none) ::
        markCode f iterator.storeCode h
        ++ (.label (loopLabel n), none) ::
          markCode f iterator.pushCode (h - iterator.ty.width)
        ++ markedOf f condition (h - iterator.ty.width + iterator.ty.width)
        ++ markCode f testTop (levelOf condition (h - iterator.ty.width + iterator.ty.width))
        ++ (.instr (.jump .z (endloopLabel n)),
            some (f, levelOf condition (h - iterator.ty.width + iterator.ty.width) - 1)) ::
          markedOf f body (h - iterator.ty.width)
        ++ markCode f iterator.storeCode (levelOf body (h - iterator.ty.width))
        ++ (.instr (.jmp (loopLabel n)),
            some (f, levelOf body (h - iterator.ty.width) - iterator.ty.width)) ::
          (.label (endloopLabel n), none) ::
          markCode f iterator.pushCode (h - iterator.ty.width)

/-- The marked lines of nodes in order. -/
def markedOf (f : Func) : List Node → Nat → List MarkedLine
  | [], _ => []
  | n :: ns, h => n.marked f h ++ markedOf f ns (n.after h)

end

/-- What a function does before its body: it saves its pin slots and goes over to the data stack. -/
def Func.entering (f : Func) : List Instr :=
  (f.slots.map fun slot => .push (slotOperand slot))
    ++ [.mov returnPointer (.reg .rsp), .movReg .rsp .rax]

/-- What a function does after its body. -/
def Func.leaving (f : Func) : List Instr :=
  [.movReg .rax .rsp, .mov (.reg .rsp) returnPointer]
    ++ (f.slots.reverse.map fun slot => .pop (slotOperand slot)) ++ [.ret]

/-- What a program does before its main code. -/
def startCode : List Instr :=
  [.movAddress .r15 "pins", .movAddress .rax "ret_stack_end", .mov returnPointer (.reg .rax)]

/-- What a program does after its main code. -/
def exitCode : List Instr := [.movImm .rax 60, .arithReg .xor .rdi .rdi, .syscall]

/-- The words on the data stack after the body of a function. -/
def Func.after (f : Func) : Nat := levelOf f.body f.contract.takes

def Func.marked (f : Func) : List MarkedLine :=
  unmarked [.blank, .comment s!"{f.name} {f.contract.text} ({f.place.text})", .label f.label]
    ++ unmarked (instrs f.entering) ++ markedOf f f.body f.contract.takes
    ++ markFirst (f, f.after) (instrs f.leaving)

/-- The marked lines of the main code. -/
def markedEntry (main : Func) : List MarkedLine :=
  unmarked [.blank, .label "_start"] ++ unmarked (instrs startCode)
    ++ markedOf main main.body main.contract.takes
    ++ (.comment "exit(0)", none) :: markFirst (main, main.after) (instrs exitCode)

def Program.marked (p : Program) (tables : Tables) (limits : Limits) : List MarkedLine :=
  unmarked [.remark "Stoat compiler - generated NASM (x86-64 Linux)", .bits64, .blank,
      .sectionStart ".text", .globalLabel "_start"]
    ++ unmarked (Routine.all.flatMap Routine.block)
    ++ markedEntry p.main
    ++ p.functions.flatMap Func.marked
    ++ unmarked tables.literalLines
    ++ unmarked (tables.spaceLines limits)

/-! ## The lines without the marks -/

@[simp] theorem unmarked_lines (lines : List Line) : (unmarked lines).map Prod.fst = lines := by
  simp [unmarked, Function.comp_def]

theorem unmarked_append (a b : List Line) : unmarked (a ++ b) = unmarked a ++ unmarked b := by
  simp [unmarked]

@[simp] theorem markFirst_lines (m : Mark) (lines : List Line) :
    (markFirst m lines).map Prod.fst = lines := by
  cases lines <;> simp [markFirst]

@[simp] theorem markCode_lines (f : Func) (is : List Instr) (h : Nat) :
    (markCode f is h).map Prod.fst = instrs is := by
  induction is generalizing h with
  | nil => rfl
  | cons i is ih => simp [markCode, instrs, ih]

mutual

@[simp] theorem Node.marked_lines (f : Func) (h : Nat) :
    (n : Node) → (n.marked f h).map Prod.fst = n.lines
  | .op _ _ => by simp [Node.marked, Node.lines]
  | .call _ _ => by simp [Node.marked, Node.lines]
  | .ifTrue body _ _ => by simp [Node.marked, Node.lines, markedOf_lines f body]
  | .ifFalse body _ _ => by simp [Node.marked, Node.lines, markedOf_lines f body]
  | .ifElse yes no _ _ => by
    simp [Node.marked, Node.lines, markedOf_lines f yes, markedOf_lines f no]
  | .loop _ condition body _ _ => by
    simp [Node.marked, Node.lines, markedOf_lines f condition, markedOf_lines f body]

@[simp] theorem markedOf_lines (f : Func) :
    (nodes : List Node) → (h : Nat) → (markedOf f nodes h).map Prod.fst = linesOf nodes
  | [], _ => rfl
  | n :: ns, h => by simp [markedOf, linesOf, Node.marked_lines f h n, markedOf_lines f ns]

end

theorem instrs_append (a b : List Instr) : instrs (a ++ b) = instrs a ++ instrs b := by
  simp [instrs]

@[simp] theorem Func.marked_lines (f : Func) : f.marked.map Prod.fst = f.lines := by
  simp [Func.marked, Func.lines, Func.entering, Func.leaving, instrs]

@[simp] theorem markedEntry_lines (main : Func) :
    (markedEntry main).map Prod.fst = entryLines main := by
  simp [markedEntry, entryLines, startCode, exitCode]

theorem Program.marked_lines (p : Program) (tables : Tables) (limits : Limits) :
    (p.marked tables limits).map Prod.fst = p.lines tables limits := by
  simp [Program.marked, Program.lines, List.map_flatMap]

end PinnedStack
