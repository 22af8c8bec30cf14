import PinnedStack.Code
import PinnedStack.Proofs.Machine.State
import PinnedStack.Proofs.Typing.Visits

/-!
# Runs of emitted code

* `Image` — the lines of a program with their layout. `Image.position?` — where a label stands.
* `Config` — a state together with the calls that have not returned yet.
* `Image.Step` — what one instruction can do. `Kernel` — what a system call can do.
* `Layout.Fits` — the layout that the lines of a program ask for.
* `Image.Sound` — a step that leaves the pins and the return stack to the code that keeps them, and
  whose stacks have room. `Image.Runs` — sound steps in a row.
-/

namespace PinnedStack.Asm

/-! ## Code in memory -/

/-- A program in memory. -/
structure Image where
  lines : List Line
  layout : Layout

namespace Image

def code (M : Image) : List Instr := instrsOf M.lines

end Image

/-- The number of instructions in front of a label. -/
def position? (name : String) : List Line → Option Nat
  | [] => none
  | .label other :: lines => if other = name then some 0 else position? name lines
  | .instr _ :: lines => (position? name lines).map (· + 1)
  | _ :: lines => position? name lines

/-! ## Steps -/

/-- A call that has not returned: the label that was called, and the state in front of the call
instruction. -/
structure Frame where
  label : String
  state : State

/-- A state with the calls that have not returned since the run began, the last one first. The calls
are on record only; no step depends on them, but for the return of a call that is not recorded. -/
structure Config where
  state : State
  calls : List Frame

/-- What a system call can do. Number 1 only reads memory; 60 and 231 do not return. -/
structure Kernel (s t : State) : Prop where
  returns : s.regs .rax ≠ 60 ∧ s.regs .rax ≠ 231
  regs : ∀ r, r ≠ .rax → r ≠ .rcx → t.regs r = s.regs r
  mem : s.regs .rax = 1 → t.mem = s.mem
  pc : t.pc = s.pc

namespace Image

/-- What one instruction can do. -/
inductive Step (M : Image) : Config → Config → Prop where
  | effect {s t : State} {calls : List Frame} {i : Instr} (fetch : M.code[s.pc]? = some i)
      (done : i.effect M.layout s = some t) :
      Step M ⟨s, calls⟩ ⟨t.goto (s.pc + 1), calls⟩
  | set {s t : State} {calls : List Frame} {c : Cond} {r : ByteReg} {b : Bool}
      (fetch : M.code[s.pc]? = some (.set c r)) (allows : s.Allows c b)
      (done : (Operand.low r).writeByte M.layout s (if b then 1 else 0) = some t) :
      Step M ⟨s, calls⟩ ⟨t.goto (s.pc + 1), calls⟩
  | taken {s : State} {calls : List Frame} {c : Cond} {l : String} {q : Nat}
      (fetch : M.code[s.pc]? = some (.jump c l)) (allows : s.Allows c true)
      (target : position? l M.lines = some q) :
      Step M ⟨s, calls⟩ ⟨s.goto q, calls⟩
  | passed {s : State} {calls : List Frame} {c : Cond} {l : String}
      (fetch : M.code[s.pc]? = some (.jump c l)) (allows : s.Allows c false) :
      Step M ⟨s, calls⟩ ⟨s.goto (s.pc + 1), calls⟩
  | jmp {s : State} {calls : List Frame} {l : String} {q : Nat}
      (fetch : M.code[s.pc]? = some (.jmp l)) (target : position? l M.lines = some q) :
      Step M ⟨s, calls⟩ ⟨s.goto q, calls⟩
  | call {s : State} {calls : List Frame} {l : String} {q : Nat}
      (fetch : M.code[s.pc]? = some (.call l)) (target : position? l M.lines = some q) :
      Step M ⟨s, calls⟩ ⟨(s.push (M.layout.address (s.pc + 1))).goto q, ⟨l, s⟩ :: calls⟩
  | ret {s : State} {calls : List Frame} {fr : Frame} {q : Nat}
      (fetch : M.code[s.pc]? = some .ret) (inside : q < M.code.length)
      (back : M.layout.address q = s.top) :
      Step M ⟨s, fr :: calls⟩ ⟨s.pop.goto q, calls⟩
  | syscall {s t : State} {calls : List Frame} (fetch : M.code[s.pc]? = some .syscall)
      (answer : Kernel s t) :
      Step M ⟨s, calls⟩ ⟨t.goto (s.pc + 1), calls⟩

inductive Steps (M : Image) : Config → Config → Prop where
  | refl {c : Config} : Steps M c c
  | head {c d e : Config} (one : M.Step c d) (rest : Steps M d e) : Steps M c e

end Image

/-! ## The layout of a program -/

/-- A layout as the lines of a program with the given limits and number of instructions ask for. The
two stacks are kept apart by more than one instruction moves `rsp`. -/
structure Layout.Fits (L : Layout) (limits : Limits) (extent : Nat) : Prop where
  address : ∀ q < extent, ∀ r < extent, L.address q = L.address r → q = r
  pins : L.symbol "pins" = BitVec.ofNat 64 L.pins
  pointer : L.symbol "ret_stack_rsp" = BitVec.ofNat 64 L.returnPointer
  stackEnd : L.symbol "ret_stack_end" = BitVec.ofNat 64 L.returnEnd
  low : 8 ≤ L.pins
  pins_size : L.returnPointer = L.pins + 8 * max limits.pinCapacity 1
  pointer_size : L.returnStack = L.returnPointer + 8
  stack_size : L.returnEnd = L.returnStack + limits.returnStackBytes
  gap : L.returnEnd + 64 ≤ L.dataStack
  high : L.dataStack ≤ 2 ^ 64

/-! ## Sound steps -/

/-- Is `rsp` inside one of the two stacks? -/
def State.OnStack (s : State) (L : Layout) : Prop :=
  L.dataStack ≤ (s.regs .rsp).toNat
    ∨ (L.returnStack ≤ (s.regs .rsp).toNat ∧ (s.regs .rsp).toNat ≤ L.returnEnd)

/-- Does an instruction change memory that the program or the kernel chooses? Addresses of programs
are in `rax`. -/
def Instr.changesChosen : Instr → Bool
  | .mov (.mem (.at .rax)) _ => true
  | .pop (.qword (.at .rax)) => true
  | .pop (.qword (.offset .rax _)) => true
  | .syscall => true
  | _ => false

/-- Two memories agree on the pins, the pointer of the return stack and the return stack. -/
def Memory.Spares (L : Layout) (m m' : Memory) : Prop :=
  ∀ x : Word, L.pins ≤ x.toNat → x.toNat < L.returnEnd → m' x = m x

/-- A step after which `rsp` is still on its stack, and which does not store through an address of
the program, or in the kernel, where the pins and return addresses are. -/
structure Image.Sound (M : Image) (c d : Config) : Prop where
  step : M.Step c d
  onStack : d.state.OnStack M.layout
  spares : ∀ i, M.code[c.state.pc]? = some i → i.changesChosen = true →
    Memory.Spares M.layout c.state.mem d.state.mem

/-- Sound steps in a row, by their number. -/
inductive Image.Runs (M : Image) : Nat → Config → Config → Prop where
  | refl {c : Config} : Runs M 0 c c
  | head {n : Nat} {c d e : Config} (one : M.Sound c d) (rest : Runs M n d e) :
      Runs M (n + 1) c e

namespace Image

variable {M : Image} {c d e : Config}

theorem Steps.trans (h : M.Steps c d) (h' : M.Steps d e) : M.Steps c e := by
  induction h with
  | refl => exact h'
  | head one _ ih => exact .head one (ih h')

/-- A step that stays on the stack and does not store through an address of the program. -/
theorem Sound.of_step {i : Instr} (fetch : M.code[c.state.pc]? = some i) (step : M.Step c d)
    (on : d.state.OnStack M.layout) (own : i.changesChosen = false) : M.Sound c d := by
  refine ⟨step, on, fun j here chosen => ?_⟩
  obtain rfl := Option.some.inj (fetch.symm.trans here)
  rw [own] at chosen
  cases chosen

theorem Sound.of_effect {s t : State} {calls : List Frame} {i : Instr}
    (fetch : M.code[s.pc]? = some i) (done : i.effect M.layout s = some t)
    (on : (t.goto (s.pc + 1)).OnStack M.layout) (own : i.changesChosen = false) :
    M.Sound ⟨s, calls⟩ ⟨t.goto (s.pc + 1), calls⟩ := .of_step fetch (.effect fetch done) on own

theorem Runs.steps {n : Nat} (h : M.Runs n c d) : M.Steps c d := by
  induction h with
  | refl => exact .refl
  | head one _ ih => exact .head one.step ih

theorem Runs.trans {m n : Nat} (h : M.Runs m c d) (h' : M.Runs n d e) : M.Runs (m + n) c e := by
  induction h with
  | refl =>
    rw [Nat.zero_add]
    exact h'
  | @head k _ _ _ one _ ih =>
    rw [Nat.add_right_comm]
    exact .head one (ih h')

end Image

end PinnedStack.Asm
