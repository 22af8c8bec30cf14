/-!
# Machine instructions

The part of the x86-64 instruction set that is used, as data.

* `Reg`, `ByteReg` — registers. `Mem` — addresses. `Operand` — what an instruction works on.
* `Instr` — an instruction; `Instr.text` spells it.
* `Instr.target?` — the label an instruction jumps to or calls.
-/

namespace PinnedStack.Asm

inductive Reg where
  | rax
  | rbx
  | rcx
  | rdx
  | rsi
  | rdi
  | rsp
  | r8
  | r9
  | r10
  | r15
deriving DecidableEq

/-- The lowest byte of a register. -/
inductive ByteReg where
  | al
  | bl
  | cl
  | dl
  | r8b
deriving DecidableEq

/-- An address in memory. -/
inductive Mem where
  | at (base : Reg)
  | offset (base : Reg) (bytes : Nat)
  | symbol (name : String)
deriving DecidableEq

/-- What an instruction works on. The memory of `mem` has the size of the other operand. -/
inductive Operand where
  | reg (r : Reg)
  | low (r : ByteReg)
  | mem (m : Mem)
  | qword (m : Mem)
  | byte (m : Mem)
  | imm (n : Int)
  | char (c : Char)
  | address (label : String)
deriving DecidableEq

/-- An instruction that combines its second operand into its first. -/
inductive Arith where
  | add
  | sub
  | imul
  | and
  | or
  | xor
  | shl
  | shr
deriving DecidableEq

/-- An instruction on one operand. `div` divides `rdx:rax` without sign, `idiv` with it. -/
inductive Unary where
  | neg
  | inc
  | dec
  | div
  | idiv
deriving DecidableEq

inductive Cond where
  | e
  | ne
  | l
  | g
  | le
  | ge
  | z
  | nz
  | ns
deriving DecidableEq

/-- An instruction. `movzx` moves a byte and fills the rest of the target with zeros, `lea` moves an
address and not what it leads to, `cqo` extends the sign of `rax` into `rdx`, and `set` sets a byte
to whether a condition holds. -/
inductive Instr where
  | push (source : Operand)
  | pop (target : Operand)
  | mov (target source : Operand)
  | movzx (target source : Operand)
  | lea (target : Reg) (source : Mem)
  | arith (op : Arith) (target source : Operand)
  | unary (op : Unary) (target : Operand)
  | cmp (left right : Operand)
  | test (left right : Operand)
  | cqo
  | set (cond : Cond) (target : ByteReg)
  | jump (cond : Cond) (label : String)
  | jmp (label : String)
  | call (label : String)
  | ret
  | syscall
deriving DecidableEq

def Reg.text : Reg → String
  | rax => "rax"
  | rbx => "rbx"
  | rcx => "rcx"
  | rdx => "rdx"
  | rsi => "rsi"
  | rdi => "rdi"
  | rsp => "rsp"
  | r8 => "r8"
  | r9 => "r9"
  | r10 => "r10"
  | r15 => "r15"

def ByteReg.text : ByteReg → String
  | al => "al"
  | bl => "bl"
  | cl => "cl"
  | dl => "dl"
  | r8b => "r8b"

def Mem.text : Mem → String
  | .at base => s!"[{base.text}]"
  | offset base bytes => s!"[{base.text} + {bytes}]"
  | symbol name => s!"[{name}]"

def Operand.text : Operand → String
  | reg r => r.text
  | low r => r.text
  | mem m => m.text
  | qword m => "qword " ++ m.text
  | byte m => "byte " ++ m.text
  | imm n => toString n
  | char c => s!"'{c}'"
  | address label => label

def Arith.text : Arith → String
  | add => "add"
  | sub => "sub"
  | imul => "imul"
  | and => "and"
  | or => "or"
  | xor => "xor"
  | shl => "shl"
  | shr => "shr"

def Unary.text : Unary → String
  | neg => "neg"
  | inc => "inc"
  | dec => "dec"
  | div => "div"
  | idiv => "idiv"

def Cond.text : Cond → String
  | e => "e"
  | ne => "ne"
  | l => "l"
  | g => "g"
  | le => "le"
  | ge => "ge"
  | z => "z"
  | nz => "nz"
  | ns => "ns"

namespace Instr

/-- How an instruction is written. -/
def text : Instr → String
  | push source => s!"push {source.text}"
  | pop target => s!"pop {target.text}"
  | mov target source => s!"mov {target.text}, {source.text}"
  | movzx target source => s!"movzx {target.text}, {source.text}"
  | lea target source => s!"lea {target.text}, {source.text}"
  | arith op target source => s!"{op.text} {target.text}, {source.text}"
  | unary op target => s!"{op.text} {target.text}"
  | cmp left right => s!"cmp {left.text}, {right.text}"
  | test left right => s!"test {left.text}, {right.text}"
  | cqo => "cqo"
  | set cond target => s!"set{cond.text} {target.text}"
  | jump cond label => s!"j{cond.text} {label}"
  | jmp label => s!"jmp {label}"
  | call label => s!"call {label}"
  | ret => "ret"
  | syscall => "syscall"

/-- The label that an instruction may go on at. -/
def target? : Instr → Option String
  | jump _ label => some label
  | jmp label => some label
  | call label => some label
  | _ => none

/-! ## Common forms -/

def pushReg (r : Reg) : Instr := push (.reg r)
def popReg (r : Reg) : Instr := pop (.reg r)
def movReg (target source : Reg) : Instr := mov (.reg target) (.reg source)
def arithReg (op : Arith) (target source : Reg) : Instr := arith op (.reg target) (.reg source)

/-- Loads a whole number into a register. -/
def movImm (target : Reg) (n : Int) : Instr := mov (.reg target) (.imm n)

/-- Loads the address of a label into a register. -/
def movAddress (target : Reg) (label : String) : Instr := mov (.reg target) (.address label)

/-- Sets the zero flag if a register is zero. -/
def testReg (r : Reg) : Instr := test (.reg r) (.reg r)

end Instr

end PinnedStack.Asm
