import PinnedStack.Asm.Routine
import PinnedStack.Program
import PinnedStack.Supply

/-!
# Emitted code

The data stack is the processor's own, at `rsp`. While a function runs, return addresses are on a
stack of their own whose pointer is kept in memory; calls swap the two. Pins are at `r15`.

* `Op.code` — the instructions of an operation. Binary operators take the right operand from the
  top into `rbx` and the left one into `rax`.
* `Node.lines` / `linesOf` — branches, loops and calls around them.
* `Func.lines` — a function saves the pin slots it uses and restores them before it returns.
* `Program.lines` / `Program.asm` — the whole program with its data, and its text.
-/

namespace PinnedStack

open Asm

/-- Does a value fit an immediate operand of 32 bits? -/
def fitsImmediate (value : Int64) : Bool :=
  Int32.minValue.toInt ≤ value.toInt && value.toInt ≤ Int32.maxValue.toInt

/-- Pushes a number; a wide one goes through `rax`. -/
def pushNumber (value : Int64) : List Instr :=
  if fitsImmediate value then [.push (.imm value.toInt)]
  else [.movImm .rax value.toInt, .pushReg .rax]

/-- Pushes the address of a label. -/
def pushAddress (label : String) : List Instr := [.movAddress .rax label, .pushReg .rax]

/-- The memory of a pin slot. -/
def slotOperand (slot : Nat) : Operand := .qword (.offset .r15 (slot * wordBytes))

/-- Takes the value on top into the slots of a pin, its last word first. -/
def Pin.storeCode (p : Pin) : List Instr := p.slots.reverse.map fun slot => .pop (slotOperand slot)

/-- Pushes the value of a pin. -/
def Pin.pushCode (p : Pin) : List Instr := p.slots.map fun slot => .push (slotOperand slot)

/-- Sets `rax` to 1 or 0 by a comparison of `rax` with `rbx`. -/
def compareCode (cond : Cond) : List Instr :=
  [.cmp (.reg .rax) (.reg .rbx), .set cond .al, .movzx (.reg .rax) (.low .al)]

/-- Combines `rbx` into `rax`. -/
def Binary.combine : Binary → List Instr
  | add => [.arithReg .add .rax .rbx]
  | sub => [.arithReg .sub .rax .rbx]
  | mul => [.arithReg .imul .rax .rbx]
  | div => [.cqo, .unary .idiv (.reg .rbx)]
  | mod => [.cqo, .unary .idiv (.reg .rbx), .movReg .rax .rdx]
  | and => [.arithReg .and .rax .rbx]
  | or => [.arithReg .or .rax .rbx]
  | xor => [.arithReg .xor .rax .rbx]
  | shl => [.movReg .rcx .rbx, .arith .shl (.reg .rax) (.low .cl)]
  | shr => [.movReg .rcx .rbx, .arith .shr (.reg .rax) (.low .cl)]
  | eq => compareCode .e
  | ne => compareCode .ne
  | lt => compareCode .l
  | gt => compareCode .g
  | le => compareCode .le
  | ge => compareCode .ge

/-- The instructions of a binary operator. -/
def Binary.code (op : Binary) : List Instr :=
  [.popReg .rbx, .popReg .rax] ++ op.combine ++ [.pushReg .rax]

/-- The registers for the arguments of a system call, in order. -/
def syscallRegisters : List Reg := [.rdi, .rsi, .rdx, .r10, .r8, .r9]

/-- Reads through the address in `rax`. -/
def Access.loadCode : Access → List Instr
  | word => [.push (.qword (.at .rax))]
  | byte => [.movzx (.reg .rbx) (.byte (.at .rax)), .pushReg .rbx]
  | record r => r.layout.map fun f => .push (.qword (.offset .rax f.offset))

/-- Writes through the address in `rax`. -/
def Access.storeCode : Access → List Instr
  | word => [.popReg .rbx, .mov (.mem (.at .rax)) (.reg .rbx)]
  | byte => [.popReg .rbx, .mov (.mem (.at .rax)) (.low .bl)]
  | record r => r.layout.reverse.map fun f => .pop (.qword (.offset .rax f.offset))

/-- The instructions of an operation. -/
def Op.code : Op → List Instr
  | number value => pushNumber value
  | bool value => [.push (.imm (if value then 1 else 0))]
  | string label length => pushNumber (Int64.ofNat length) ++ pushAddress label
  | cstring label => pushAddress label
  | memory label _ => pushAddress label
  | dup => [.push (.qword (.at .rsp))]
  | drop => [.arith .add (.reg .rsp) (.imm 8)]
  | swap => [.popReg .rax, .popReg .rbx, .pushReg .rax, .pushReg .rbx]
  | copySecond => [.push (.qword (.offset .rsp 8))]
  | rot =>
      [.popReg .rcx, .popReg .rbx, .popReg .rax, .pushReg .rbx, .pushReg .rcx, .pushReg .rax]
  | print => [.popReg .rdi, .call "print_decimal"]
  | binary op => op.code
  | not =>
      [.popReg .rax, .testReg .rax, .set .e .al, .movzx (.reg .rax) (.low .al), .pushReg .rax]
  | streq =>
      [.popReg .rsi, .popReg .rdx, .popReg .rdi, .popReg .rcx, .call "str_equal", .pushReg .rax]
  | load access => .popReg .rax :: access.loadCode
  | store access => .popReg .rax :: access.storeCode
  | field _ f =>
      if f.offset = 0 then [] else [.arith .add (.qword (.at .rsp)) (.imm f.offset)]
  | syscall arguments =>
      .popReg .rax :: (syscallRegisters.take arguments).map .popReg ++ [.syscall, .pushReg .rax]
  | cast _ => []
  | pin p => p.storeCode
  | unpin _ => []
  | pinned p => p.pushCode
  | update p => p.storeCode

/-! ## Blocks -/

/-- The label of the arm after `else`. -/
def elseLabel (n : Nat) : String := s!"if_{n}_else"

/-- The label after a branch. -/
def endifLabel (n : Nat) : String := s!"if_{n}_end"

/-- The label before a loop's condition. -/
def loopLabel (n : Nat) : String := s!"loop_{n}_start"

/-- The label after a loop. -/
def endloopLabel (n : Nat) : String := s!"loop_{n}_end"

/-- Where the pointer of the return stack is kept. -/
def returnPointer : Operand := .mem (.symbol "ret_stack_rsp")

/-- Takes the condition on top and sets the zero flag if it is zero. -/
def testTop : List Instr := [.popReg .rax, .testReg .rax]

/-- Calls a function: `rax` carries the data stack over, and back. -/
def Call.code (c : Call) : List Instr :=
  [.movReg .rax .rsp, .mov (.reg .rsp) returnPointer, .call c.label,
    .mov returnPointer (.reg .rsp), .movReg .rsp .rax]

mutual

def Node.lines : Node → List Line
  | .op op _ => instrs op.code
  | .call call _ => .comment s!"call {call.name}" :: instrs call.code
  | .ifTrue body n place =>
      .comment s!"if ({place.text})" :: instrs testTop
        ++ .instr (.jump .z (endifLabel n)) :: linesOf body
        ++ [.label (endifLabel n)]
  | .ifFalse body n place =>
      .comment s!"if ({place.text})" :: instrs testTop
        ++ .instr (.jump .nz (endifLabel n)) :: linesOf body
        ++ [.label (endifLabel n)]
  | .ifElse yes no n place =>
      .comment s!"if ({place.text})" :: instrs testTop
        ++ .instr (.jump .z (elseLabel n)) :: linesOf yes
        ++ .instr (.jmp (endifLabel n)) :: .label (elseLabel n) :: linesOf no
        ++ [.label (endifLabel n)]
  | .loop iterator condition body n place =>
      .comment s!"loop {iterator.name} ({place.text})" :: instrs iterator.storeCode
        ++ .label (loopLabel n) :: instrs iterator.pushCode
        ++ linesOf condition
        ++ instrs testTop
        ++ .instr (.jump .z (endloopLabel n)) :: linesOf body
        ++ instrs iterator.storeCode
        ++ .instr (.jmp (loopLabel n)) :: .label (endloopLabel n) :: instrs iterator.pushCode

def linesOf : List Node → List Line
  | [] => []
  | n :: ns => n.lines ++ linesOf ns

end

/-! ## Programs -/

/-- The lines of a function. It is entered on the return stack, with the data stack in `rax`. -/
def Func.lines (f : Func) : List Line :=
  [.blank, .comment s!"{f.name} {f.contract.text} ({f.place.text})", .label f.label]
    ++ instrs (f.slots.map fun slot => .push (slotOperand slot))
    ++ instrs [.mov returnPointer (.reg .rsp), .movReg .rsp .rax]
    ++ linesOf f.body
    ++ instrs [.movReg .rax .rsp, .mov (.reg .rsp) returnPointer]
    ++ instrs (f.slots.reverse.map fun slot => .pop (slotOperand slot))
    ++ [.instr .ret]

/-- A routine with its description and its label. -/
def Asm.Routine.block (r : Routine) : List Line :=
  [.blank, .comment r.description, .label r.name] ++ r.lines

/-- The start of a program: both stacks and the pins are set up, and the main code runs and ends. -/
def entryLines (main : Func) : List Line :=
  [.blank, .label "_start"]
    ++ instrs [.movAddress .r15 "pins", .movAddress .rax "ret_stack_end",
        .mov returnPointer (.reg .rax)]
    ++ linesOf main.body
    ++ .comment "exit(0)" :: instrs [.movImm .rax 60, .arithReg .xor .rdi .rdi, .syscall]

def Tables.literalLines (t : Tables) : List Line :=
  [.blank, .sectionStart ".rodata"]
    ++ t.labelledLiterals.map fun (label, bytes) => .bytes label bytes

/-- The pin buffer, the return stack and the memories. Everything has at least one unit, so that
labels differ. -/
def Tables.spaceLines (t : Tables) (limits : Limits) : List Line :=
  [.blank, .sectionStart ".bss",
    .reserve "pins" .words (max limits.pinCapacity 1) none,
    .reserve "ret_stack_rsp" .words 1 none,
    .reserve "ret_stack" .bytes limits.returnStackBytes none,
    .label "ret_stack_end"]
    ++ t.labelledRegions.map fun (label, region) =>
        .reserve label .bytes (max region.size 1) (some region.name)

def Program.lines (p : Program) (tables : Tables) (limits : Limits) : List Line :=
  [.remark "Stoat compiler - generated NASM (x86-64 Linux)", .bits64, .blank,
    .sectionStart ".text", .globalLabel "_start"]
    ++ Routine.all.flatMap Routine.block
    ++ entryLines p.main
    ++ p.functions.flatMap Func.lines
    ++ tables.literalLines
    ++ tables.spaceLines limits

def Program.asm (p : Program) (tables : Tables) (limits : Limits) : String :=
  textOf (p.lines tables limits)

@[simp] theorem linesOf_append (a b : List Node) : linesOf (a ++ b) = linesOf a ++ linesOf b := by
  induction a with
  | nil => rfl
  | cons n a ih => simp [linesOf, ih]

end PinnedStack
