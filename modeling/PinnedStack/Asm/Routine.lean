import PinnedStack.Asm.Line

/-!
# Routines that come with every program

They are called with `rsp` on the data stack and are free to change all registers but `rsp`, `rbx`
and `r15`.

* `printDecimal` — writes `rdi` as a signed decimal number and a line feed.
* `strEqual` — compares two byte ranges.
-/

namespace PinnedStack.Asm

structure Routine where
  name : String
  description : String
  lines : List Line

namespace Routine

/-- The text of a routine without its label. -/
def text (r : Routine) : String := textOf r.lines

/-- Writes `rdi` as a signed decimal number. The digits are made from the last to the first, below a
line feed at the top of 32 bytes on the stack, and the whole is written at once. The absolute value
is divided without sign, so that the lowest number needs no case of its own. -/
def printDecimal : Routine where
  name := "print_decimal"
  description := "print_decimal(rdi: i64): write rdi as signed decimal plus newline to stdout"
  lines :=
    instrs [
      .arith .sub (.reg .rsp) (.imm 32),
      .movReg .rax .rdi,
      .arithReg .xor .r8 .r8,
      .testReg .rax,
      .jump .ns ".digits",
      .unary .neg (.reg .rax),
      .movImm .r8 1]
    ++ [.label ".digits"] ++
    instrs [
      .lea .rsi (.offset .rsp 31),
      .mov (.byte (.at .rsi)) (.imm 10),
      .movImm .rcx 10]
    ++ [.label ".next"] ++
    instrs [
      .arithReg .xor .rdx .rdx,
      .unary .div (.reg .rcx),
      .arith .add (.low .dl) (.char '0'),
      .unary .dec (.reg .rsi),
      .mov (.mem (.at .rsi)) (.low .dl),
      .testReg .rax,
      .jump .nz ".next",
      .testReg .r8,
      .jump .z ".write",
      .unary .dec (.reg .rsi),
      .mov (.byte (.at .rsi)) (.char '-')]
    ++ [.label ".write"] ++
    instrs [
      .movImm .rax 1,
      .movImm .rdi 1,
      .lea .rdx (.offset .rsp 32),
      .arithReg .sub .rdx .rsi,
      .syscall,
      .arith .add (.reg .rsp) (.imm 32),
      .ret]

/-- Sets `rax` to 1 if the `rcx` bytes at `rdi` are the `rdx` bytes at `rsi`, and to 0 if not. -/
def strEqual : Routine where
  name := "str_equal"
  description :=
    "str_equal(rcx: len, rdi: ptr, rdx: len, rsi: ptr) -> rax: 1 when the byte ranges are equal"
  lines :=
    instrs [
      .arithReg .xor .rax .rax,
      .cmp (.reg .rcx) (.reg .rdx),
      .jump .ne ".done"]
    ++ [.label ".compare"] ++
    instrs [
      .testReg .rcx,
      .jump .z ".equal",
      .mov (.low .r8b) (.mem (.at .rdi)),
      .cmp (.low .r8b) (.mem (.at .rsi)),
      .jump .ne ".done",
      .unary .inc (.reg .rdi),
      .unary .inc (.reg .rsi),
      .unary .dec (.reg .rcx),
      .jmp ".compare"]
    ++ [.label ".equal"] ++
    instrs [.movImm .rax 1]
    ++ [.label ".done"] ++
    instrs [.ret]

/-- The routines in the order in which they are emitted. -/
def all : List Routine := [printDecimal, strEqual]

end Routine

end PinnedStack.Asm
