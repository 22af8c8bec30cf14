import PinnedStack.Asm.Line
import PinnedStack.Proofs.Machine.Memory

/-!
# What an instruction does

* `Layout` — where code and data are. `State` — registers, flags, memory and the next position.
* `Operand.read`, `Operand.write` — operands of eight bytes; `readByte`, `writeByte` — of one.
* `Instr.effect` — what an instruction does that goes on to the one after it, unless it faults.

Flags are kept from comparisons only; after any other instruction that changes them they are unknown.
-/

namespace PinnedStack.Asm

structure Flags where
  zero : Bool
  sign : Bool
  overflow : Bool
deriving DecidableEq

def Flags.ofDifference {n : Nat} (a b : BitVec n) : Flags where
  zero := a == b
  sign := (a - b).msb
  overflow := a.msb != b.msb && (a - b).msb != a.msb

def Flags.ofConjunction {n : Nat} (a b : BitVec n) : Flags where
  zero := a &&& b == 0
  sign := (a &&& b).msb
  overflow := false

def Cond.holds (f : Flags) : Cond → Bool
  | e => f.zero
  | ne => !f.zero
  | l => f.sign != f.overflow
  | g => !f.zero && f.sign == f.overflow
  | le => f.zero || f.sign != f.overflow
  | ge => f.sign == f.overflow
  | z => f.zero
  | nz => !f.zero
  | ns => !f.sign

/-- Where code and data are: the instructions by their positions, the labels of data, the pin
buffer, the cell with the pointer of the return stack, the return stack and its end, and the memory
for the data stack. -/
structure Layout where
  address : Nat → Word
  symbol : String → Word
  pins : Nat
  returnPointer : Nat
  returnStack : Nat
  returnEnd : Nat
  dataStack : Nat

/-- A state of the processor and its memory in front of the instruction at position `pc`. The flags
are unknown unless they come from a comparison. -/
structure State where
  regs : Reg → Word
  flags : Option Flags
  mem : Memory
  pc : Nat

namespace State

def set (s : State) (r : Reg) (w : Word) : State :=
  { s with regs := fun x => if x = r then w else s.regs x }

def push (s : State) (w : Word) : State :=
  { s.set .rsp (s.regs .rsp - 8) with mem := s.mem.store (s.regs .rsp - 8) w }

def top (s : State) : Word := s.mem.load (s.regs .rsp)

def pop (s : State) : State := s.set .rsp (s.regs .rsp + 8)

def forget (s : State) : State := { s with flags := none }

def goto (s : State) (pc : Nat) : State := { s with pc := pc }

/-- Can the condition come out like this? -/
def Allows (s : State) (c : Cond) (b : Bool) : Prop := ∀ f, s.flags = some f → c.holds f = b

@[simp] theorem set_same (s : State) (r : Reg) (w : Word) : (s.set r w).regs r = w := if_pos rfl
@[simp] theorem goto_regs (s : State) (q : Nat) : (s.goto q).regs = s.regs := rfl
@[simp] theorem goto_pc (s : State) (q : Nat) : (s.goto q).pc = q := rfl
@[simp] theorem push_rsp (s : State) (w : Word) : (s.push w).regs .rsp = s.regs .rsp - 8 := rfl
@[simp] theorem pop_rsp (s : State) : s.pop.regs .rsp = s.regs .rsp + 8 := rfl

@[simp] theorem push_mem (s : State) (w : Word) :
    (s.push w).mem = s.mem.store (s.regs .rsp - 8) w := rfl

theorem push_of_ne {s : State} {w : Word} {x : Reg} (ne : x ≠ .rsp) :
    (s.push w).regs x = s.regs x := if_neg ne

theorem pop_of_ne {s : State} {x : Reg} (ne : x ≠ .rsp) : s.pop.regs x = s.regs x := if_neg ne

end State

/-! ## Operands -/

/-- The register that a byte is part of. -/
def ByteReg.whole : ByteReg → Reg
  | al => .rax
  | bl => .rbx
  | cl => .rcx
  | dl => .rdx
  | r8b => .r8

/-- The address that an operand in memory names. -/
def Mem.address (L : Layout) (s : State) : Mem → Word
  | .at base => s.regs base
  | offset base bytes => s.regs base + BitVec.ofNat 64 bytes
  | symbol name => L.symbol name

namespace Operand

/-- Is it one byte, whatever the other operand is? -/
def isByte : Operand → Bool
  | low _ => true
  | byte _ => true
  | _ => false

def read (L : Layout) (s : State) : Operand → Option Word
  | reg r => some (s.regs r)
  | mem m => some (s.mem.load (m.address L s))
  | qword m => some (s.mem.load (m.address L s))
  | imm n => some (BitVec.ofInt 64 n)
  | char c => some (BitVec.ofNat 64 c.toNat)
  | address label => some (L.symbol label)
  | _ => none

def readByte (L : Layout) (s : State) : Operand → Option Byte
  | low r => some ((s.regs r.whole).setWidth 8)
  | mem m => some (s.mem (m.address L s))
  | byte m => some (s.mem (m.address L s))
  | imm n => some (BitVec.ofInt 8 n)
  | char c => some (BitVec.ofNat 8 c.toNat)
  | _ => none

def write (L : Layout) (s : State) (w : Word) : Operand → Option State
  | reg r => some (s.set r w)
  | mem m => some { s with mem := s.mem.store (m.address L s) w }
  | qword m => some { s with mem := s.mem.store (m.address L s) w }
  | _ => none

def writeByte (L : Layout) (s : State) (b : Byte) : Operand → Option State
  | low r => some (s.set r.whole (BitVec.ofNat 64 ((s.regs r.whole).toNat / 256 * 256 + b.toNat)))
  | mem m => some { s with mem := s.mem.storeByte (m.address L s) b }
  | byte m => some { s with mem := s.mem.storeByte (m.address L s) b }
  | _ => none

end Operand

/-! ## Effects -/

/-- The result of a combination. A word is shifted by the lowest six bits of the count. -/
def Arith.result {n : Nat} : Arith → BitVec n → BitVec n → BitVec n
  | add, a, b => a + b
  | sub, a, b => a - b
  | imul, a, b => a * b
  | and, a, b => a &&& b
  | or, a, b => a ||| b
  | xor, a, b => a ^^^ b
  | shl, a, b => a <<< (b.toNat % 64)
  | shr, a, b => a >>> (b.toNat % 64)

def Arith.isShift : Arith → Bool
  | shl => true
  | shr => true
  | _ => false

/-- Division of `rdx:rax` without sign. It faults on zero and on a quotient of more than a word. -/
def State.div (s : State) (d : Word) : Option State :=
  let n := (s.regs .rdx).toNat * 2 ^ 64 + (s.regs .rax).toNat
  if d.toNat = 0 ∨ 2 ^ 64 ≤ n / d.toNat then none
  else some ((s.set .rax (BitVec.ofNat 64 (n / d.toNat))).set .rdx (BitVec.ofNat 64 (n % d.toNat)))

/-- Division of `rdx:rax` with sign, towards zero. It faults like the one without sign. -/
def State.idiv (s : State) (d : Word) : Option State :=
  let n := (s.regs .rdx).toInt * 2 ^ 64 + (s.regs .rax).toNat
  let q := n.tdiv d.toInt
  if d.toInt = 0 ∨ q < -2 ^ 63 ∨ 2 ^ 63 ≤ q then none
  else some ((s.set .rax (BitVec.ofInt 64 q)).set .rdx (BitVec.ofInt 64 (n.tmod d.toInt)))

/-- What an instruction on one operand does. -/
def Unary.effect (L : Layout) (s : State) (target : Operand) : Unary → Option State
  | neg => (target.read L s).bind fun w => target.write L s (-w)
  | inc => (target.read L s).bind fun w => target.write L s (w + 1)
  | dec => (target.read L s).bind fun w => target.write L s (w - 1)
  | div => (target.read L s).bind s.div
  | idiv => (target.read L s).bind s.idiv

/-- What an instruction does that goes on to the next one whatever the flags. -/
def Instr.effect (L : Layout) (s : State) : Instr → Option State
  | push source => (source.read L s).map s.push
  | pop target => target.write L s.pop s.top
  | mov target source =>
      if target.isByte || source.isByte then
        (source.readByte L s).bind fun b => target.writeByte L s b
      else (source.read L s).bind fun w => target.write L s w
  | movzx target source => (source.readByte L s).bind fun b => target.write L s (b.setWidth 64)
  | lea target source => some (s.set target (source.address L s))
  | arith op target source =>
      if op.isShift then
        (target.read L s).bind fun a => (source.readByte L s).bind fun b =>
          (target.write L s (op.result a (b.setWidth 64))).map State.forget
      else if target.isByte || source.isByte then
        (target.readByte L s).bind fun a => (source.readByte L s).bind fun b =>
          (target.writeByte L s (op.result a b)).map State.forget
      else
        (target.read L s).bind fun a => (source.read L s).bind fun b =>
          (target.write L s (op.result a b)).map State.forget
  | unary op target => (op.effect L s target).map State.forget
  | cmp left right =>
      if left.isByte || right.isByte then
        (left.readByte L s).bind fun a => (right.readByte L s).map fun b =>
          { s with flags := some (.ofDifference a b) }
      else
        (left.read L s).bind fun a => (right.read L s).map fun b =>
          { s with flags := some (.ofDifference a b) }
  | test left right =>
      (left.read L s).bind fun a => (right.read L s).map fun b =>
        { s with flags := some (.ofConjunction a b) }
  | cqo => some (s.set .rdx (if (s.regs .rax).msb then -1 else 0))
  | _ => none

end PinnedStack.Asm
