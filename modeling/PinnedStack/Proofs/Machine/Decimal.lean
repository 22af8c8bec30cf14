import Mathlib.Data.BitVec
import PinnedStack.Proofs.Machine.Ends
import PinnedStack.Proofs.Text.Literals

/-!
# Decimal output

* `decimalLine` — the decimal form of a number on a line of its own; `digitBytes` — its digits.
* `Memory.Spells` — bytes that lie in memory one after the other.
* `State.Writes` — a system call that writes given bytes.
* `SameOutside` — memories that differ in the 32 bytes below an address at most.
* `State.Written` — decimal output at work, with the bytes that it has made so far.
* `PrintCall.write`, `sign`, `rounds`, `digits` — what the routine does from each of its labels on.
* `Program.print_decimal` — the routine writes that line, once, and returns.
-/

namespace PinnedStack

open Asm

/-! ## Decimal digits -/

/-- The last decimal digit of a number, as a byte. -/
def digitByte (n : Nat) : UInt8 := UInt8.ofNat (48 + n % 10)

/-- The decimal digits of a number, as bytes. -/
def digitBytes (n : Nat) : List UInt8 := encoded (Nat.toDigits 10 n)

theorem encoded_digitChar {n : Nat} (lt : n < 10) : encoded [n.digitChar] = [digitByte n] := by
  have each : ∀ d < 10, encoded [Nat.digitChar d] = [digitByte d] := by decide
  exact each n lt

theorem digitBytes_of_lt {n : Nat} (lt : n < 10) : digitBytes n = [digitByte n] := by
  rw [digitBytes, Nat.toDigits_of_lt_base lt, encoded_digitChar lt]

theorem digitBytes_of_ge {n : Nat} (ge : 10 ≤ n) :
    digitBytes n = digitBytes (n / 10) ++ [digitByte n] := by
  have last := encoded_digitChar (Nat.mod_lt n (by decide : 0 < 10))
  have same : digitByte (n % 10) = digitByte n := by rw [digitByte, Nat.mod_mod, digitByte]
  rw [digitBytes, Nat.toDigits_of_base_le (by decide) ge, encoded, List.flatMap_append]
  rw [same] at last
  exact congrArg _ last

theorem length_digitBytes_pos (n : Nat) : 0 < (digitBytes n).length := by
  rcases Nat.lt_or_ge n 10 with small | ge
  · rw [digitBytes_of_lt small]
    exact Nat.succ_pos _
  · rw [digitBytes_of_ge ge, List.length_append]
    exact Nat.succ_pos _

theorem length_digitBytes_le {n k : Nat} (lt : n < 10 ^ (k + 1)) :
    (digitBytes n).length ≤ k + 1 := by
  induction k generalizing n with
  | zero =>
    rw [digitBytes_of_lt (by simpa using lt)]
    rfl
  | succ k ih =>
    rcases Nat.lt_or_ge n 10 with small | ge
    · rw [digitBytes_of_lt small]
      exact Nat.le_add_left ..
    · have fewer := ih (n := n / 10) (Nat.div_lt_of_lt_mul (by rw [← Nat.pow_succ']; exact lt))
      rw [digitBytes_of_ge ge, List.length_append]
      exact Nat.add_le_add_right fewer 1

def signBytes (negative : Bool) : List UInt8 := if negative then [45] else []

/-- The decimal form of a number on a line of its own, as bytes. -/
def decimalLine (n : Int) : List UInt8 := utf8Bytes (toString n ++ "\n")

theorem decimalLine_eq (n : Int) :
    decimalLine n = signBytes (n < 0) ++ (digitBytes n.natAbs ++ [10]) := by
  have list : toString n ++ "\n"
      = String.ofList ((if n < 0 then ['-'] else []) ++ (Nat.toDigits 10 n.natAbs ++ ['\n'])) := by
    rw [Int.toString_eq_repr, Int.repr_eq_if]
    apply String.toList_inj.1
    rw [String.toList_append, String.toList_ofList]
    split <;> rename_i sign
    · have abs : n.toNat = n.natAbs := by omega
      simp [if_neg (Int.not_lt.2 sign), Nat.toList_repr, abs]
    · have abs : (-n).toNat = n.natAbs := by omega
      simp [if_pos (Int.not_le.1 sign), Nat.toList_repr, abs, String.toList_append]
  rw [decimalLine, list, utf8Bytes_ofList, encoded, List.flatMap_append, List.flatMap_append]
  by_cases sign : n < 0
  · rw [if_pos sign, decide_eq_true sign]
    rfl
  · rw [if_neg sign, decide_eq_false sign]
    rfl

namespace Asm

/-! ## Bytes in memory -/

/-- Bytes lie in memory one after the other, from an address on. -/
def Memory.Spells (m : Memory) : Word → List UInt8 → Prop
  | _, [] => True
  | a, b :: bs => m a = b.toBitVec ∧ m.Spells (a + 1) bs

/-- The bytes from an address on are told by each of their addresses. -/
theorem Memory.Spells.congr {m m' : Memory} {a : Word} {bs : List UInt8} (h : m.Spells a bs)
    (same : ∀ i < bs.length, m' (a + BitVec.ofNat 64 i) = m (a + BitVec.ofNat 64 i)) :
    m'.Spells a bs := by
  induction bs generalizing a with
  | nil => trivial
  | cons b bs ih =>
    obtain ⟨first, rest⟩ := h
    refine ⟨?_, ih rest fun i lt => ?_⟩
    · have here := same 0 (Nat.succ_pos _)
      rw [BitVec.add_zero] at here
      rw [here, first]
    · have next := same (i + 1) (Nat.succ_lt_succ lt)
      rw [BitVec.ofNat_add, BitVec.add_comm (BitVec.ofNat 64 i), ← BitVec.add_assoc] at next
      exact next

theorem Memory.Spells.storeByte {m : Memory} {a : Word} {b : UInt8} {bs : List UInt8}
    (h : m.Spells (a + 1) bs) (few : bs.length < 2 ^ 64) :
    (m.storeByte a b.toBitVec).Spells a (b :: bs) := by
  refine ⟨if_pos rfl, h.congr fun i lt => Memory.storeByte_of_ne fun eq => ?_⟩
  have zero : 1 + BitVec.ofNat 64 i = (0 : Word) := by
    rw [BitVec.add_assoc] at eq
    exact BitVec.add_right_eq_self.1 eq
  have bits := congrArg BitVec.toNat zero
  rw [BitVec.toNat_add, BitVec.toNat_ofNat] at bits
  have one : (1 : Word).toNat = 1 := rfl
  have none : (0 : Word).toNat = 0 := rfl
  omega

/-- The system call that writes bytes to a descriptor. -/
structure State.Writes (s : State) (descriptor : Nat) (bs : List UInt8) : Prop where
  number : s.regs .rax = 1
  descriptor : s.regs .rdi = BitVec.ofNat 64 descriptor
  length : (s.regs .rdx).toNat = bs.length
  bytes : s.mem.Spells (s.regs .rsi) bs

/-- Two memories differ in the 32 bytes below an address at most. -/
def SameOutside (top : Word) (m m' : Memory) : Prop :=
  ∀ x : Word, 32 ≤ (x - (top - 32)).toNat → m' x = m x

/-- A byte that is written below an address, at a distance of up to 32. -/
theorem SameOutside.storeByte {top : Word} {m m' : Memory} (same : SameOutside top m m') {k : Nat}
    (positive : 0 < k) (le : k ≤ 32) (b : Byte) :
    SameOutside top m (m'.storeByte (top - BitVec.ofNat 64 k) b) := by
  intro x outside
  refine (Memory.storeByte_of_ne ?_).trans (same x outside)
  rintro rfl
  have width : k ≤ (32 : Word).toNat := le
  rw [sub_sub_sub_cancel_left, toNat_sub_ofNat width] at outside
  have bits : (32 : Word).toNat = 32 := rfl
  omega

theorem SameOutside.load {top : Word} {m m' : Memory} (same : SameOutside top m m') :
    m'.load top = m.load top := by
  refine Memory.load_congr fun i lt => same _ ?_
  have bits : (32 : Word).toNat = 32 := rfl
  rw [add_sub_sub_cancel, add_comm, toNat_add_ofNat (by omega)]
  omega

/-! ## The routine at work -/

/-- Decimal output that was called in state `s` is at work and has made some bytes, which end right
below the return address. -/
structure State.Written (s : State) (bs : List UInt8) (u : State) : Prop where
  rsp : u.regs .rsp = s.regs .rsp - 32
  outside : SameOutside (s.regs .rsp) s.mem u.mem
  start : u.regs .rsi = s.regs .rsp - BitVec.ofNat 64 bs.length
  bytes : u.mem.Spells (u.regs .rsi) bs

/-- Decimal output that was called in state `s` has returned to position `q`. One system call was
made, which wrote the bytes. -/
structure State.Printed (s : State) (bs : List UInt8) (q : Nat) (calls : List Frame)
    (made : List State) (d : Config) : Prop where
  write : ∃ w, made = [w] ∧ w.Writes 1 bs
  calls : d.calls = calls
  pc : d.state.pc = q
  rsp : d.state.regs .rsp = s.regs .rsp + 8
  outside : SameOutside (s.regs .rsp) s.mem d.state.mem

/-- The state in which decimal output is called, and where it returns to. -/
structure PrintCall (M : Image) (s : State) (q e : Nat) : Prop where
  carries : M.Carries .printDecimal e
  address : ∀ a < M.code.length, ∀ b < M.code.length,
    M.layout.address a = M.layout.address b → a = b
  into : q < M.code.length
  back : M.layout.address q = s.top

theorem State.Written.congr {s u v : State} {bs : List UInt8} (written : s.Written bs u)
    (regs : v.regs = u.regs) (mem : v.mem = u.mem) : s.Written bs v := by
  refine ⟨?_, ?_, ?_, ?_⟩
  · rw [regs, written.rsp]
  · rw [mem]
    exact written.outside
  · rw [regs, written.start]
  · rw [mem, regs]
    exact written.bytes

theorem State.Written.cons {s u v : State} {bs : List UInt8} {b : UInt8} (written : s.Written bs u)
    (few : bs.length < 32) (rsp : v.regs .rsp = u.regs .rsp) (start : v.regs .rsi = u.regs .rsi - 1)
    (mem : v.mem = u.mem.storeByte (u.regs .rsi - 1) b.toBitVec) : s.Written (b :: bs) v := by
  have before : s.regs .rsp - BitVec.ofNat 64 bs.length - 1
      = s.regs .rsp - BitVec.ofNat 64 (bs.length + 1) :=
    (BitVec.sub_sub ..).trans (congrArg _ (BitVec.ofNat_add ..).symm)
  rw [written.start, before] at start mem
  refine ⟨rsp.trans written.rsp, ?_, start, ?_⟩
  · rw [mem]
    exact written.outside.storeByte (Nat.succ_pos _) few _
  · rw [mem, start]
    refine Memory.Spells.storeByte ?_ (by omega)
    rw [← before, sub_add_cancel, ← written.start]
    exact written.bytes

/-- The absolute value of a number without a sign is its word. -/
theorem toNat_of_nonneg {w : Word} (sign : ¬ w.toInt < 0) : w.toNat = w.toInt.natAbs := by
  have bits := BitVec.toInt_eq_toNat_cond w
  have := w.isLt
  split at bits <;> omega

/-- The absolute value of a number with a sign is its word negated, also that of the lowest. -/
theorem toNat_neg_of_neg {w : Word} (sign : w.toInt < 0) : (-w).toNat = w.toInt.natAbs := by
  have bits := BitVec.toInt_eq_toNat_cond w
  have := w.isLt
  rw [BitVec.toNat_neg]
  split at bits <;> omega

/-- A word that nothing stands in front of is divided by ten. -/
theorem State.div_ten {s : State} (clear : s.regs .rdx = 0) :
    s.div 10 = some ((s.set .rax (BitVec.ofNat 64 ((s.regs .rax).toNat / 10))).set .rdx
      (BitVec.ofNat 64 ((s.regs .rax).toNat % 10))) := by
  have zero : (s.regs .rdx).toNat = 0 := by
    rw [clear]
    rfl
  have ten : (10 : Word).toNat = 10 := rfl
  have bits := (s.regs .rax).isLt
  unfold State.div
  simp only [zero, ten, Nat.zero_mul, Nat.zero_add]
  exact if_neg (by omega)

/-- A byte that was written to the low end of a register is there. -/
theorem setWidth_lowEnd (x : Word) (b : Byte) :
    (BitVec.ofNat 64 (x.toNat / 256 * 256 + b.toNat)).setWidth 8 = b := by
  have xlt := x.isLt
  have blt := b.isLt
  apply BitVec.eq_of_toNat_eq
  rw [BitVec.toNat_setWidth, BitVec.toNat_ofNat]
  omega

theorem ascii_digit (n : Nat) :
    (BitVec.ofNat 64 (n % 10)).setWidth 8 + BitVec.ofNat 8 48 = (digitByte n).toBitVec := by
  have digit := Nat.mod_lt n (by decide : 0 < 10)
  have byte : (digitByte n).toBitVec.toNat = 48 + n % 10 := by
    show (UInt8.ofNat (48 + n % 10)).toNat = _
    rw [UInt8.toNat_ofNat']
    omega
  apply BitVec.eq_of_toNat_eq
  rw [byte, BitVec.toNat_add, BitVec.toNat_setWidth, BitVec.toNat_ofNat, BitVec.toNat_ofNat]
  omega

/-- The code of one digit divides `rax` by ten, leaves the digit in `dl` and moves `rsi` down. -/
theorem outcomes_digit {L : Layout} {u : State} (ten : u.regs .rcx = 10) :
    ∃ t, outcomes L [.arithReg .xor .rdx .rdx, .unary .div (.reg .rcx),
        .arith .add (.low .dl) (.char '0'), .unary .dec (.reg .rsi)] u = some t
      ∧ u.Quiet t ∧ t.pc = u.pc + 4 ∧ (t.regs .rax).toNat = (u.regs .rax).toNat / 10
      ∧ (t.regs .rdx).setWidth 8 = (digitByte (u.regs .rax).toNat).toBitVec
      ∧ t.regs .rsi = u.regs .rsi - 1 ∧ t.regs .rcx = 10 ∧ t.regs .r8 = u.regs .r8 := by
  let clear : State := ((u.set .rdx (u.regs .rdx ^^^ u.regs .rdx)).forget).goto (u.pc + 1)
  let divided : State := ((clear.set .rax (BitVec.ofNat 64 ((u.regs .rax).toNat / 10))).set .rdx
    (BitVec.ofNat 64 ((u.regs .rax).toNat % 10))).forget.goto (u.pc + 1 + 1)
  have done : outcomes L [.arithReg .xor .rdx .rdx, .unary .div (.reg .rcx)] u = some divided := by
    show ((clear.div (u.regs .rcx)).map State.forget).bind _ = _
    rw [ten, State.div_ten (s := clear) (BitVec.xor_self ..)]
    rfl
  have quotient : (u.regs .rax).toNat / 10 < 2 ^ 64 := by
    have := (u.regs .rax).isLt
    omega
  have rest : outcomes L [.arithReg .xor .rdx .rdx, .unary .div (.reg .rcx),
      .arith .add (.low .dl) (.char '0'), .unary .dec (.reg .rsi)] u
      = outcomes L [.arith .add (.low .dl) (.char '0'), .unary .dec (.reg .rsi)] divided := by
    rw [← Option.bind_some divided (f := outcomes L _), ← done]
    exact outcomes_append L [_, _] [_, _] u
  refine ⟨_, rest.trans rfl, ⟨rfl, rfl, rfl⟩, rfl,
    (BitVec.toNat_ofNat ..).trans (Nat.mod_eq_of_lt quotient), ?_, rfl, ten, rfl⟩
  exact (setWidth_lowEnd ..).trans (ascii_digit _)

namespace PrintCall

variable {M : Image} {s u : State} {q e : Nat} {bs : List UInt8} {fr : Frame} {calls : List Frame}
  {made : List State}

/-- Memory differs in the 32 bytes below the return address at most. -/
abbrev Way (s : State) (c : Config) : Prop := SameOutside (s.regs .rsp) s.mem c.state.mem

/-- From `.write` on the bytes are written and the routine returns. -/
theorem write (c : PrintCall M s q e) (pc : u.pc = e + 21) (written : s.Written bs u)
    (few : bs.length ≤ 32) :
    M.Ends (Way s) (s.Printed bs q calls) [] ⟨u, fr :: calls⟩ := by
  obtain ⟨t, done, asks, tpc, number, descriptor, length, from_⟩ : ∃ t,
      outcomes M.layout [.movImm .rax 1, .movImm .rdi 1, .lea .rdx (.offset .rsp 32),
        .arithReg .sub .rdx .rsi] u = some t
      ∧ u.Quiet t ∧ t.pc = e + 25 ∧ t.regs .rax = 1 ∧ t.regs .rdi = 1
      ∧ t.regs .rdx = u.regs .rsp + 32 - u.regs .rsi ∧ t.regs .rsi = u.regs .rsi :=
    ⟨_, rfl, ⟨rfl, rfl, rfl⟩, congrArg (· + 4) pc, rfl, rfl, rfl, rfl⟩
  have same : SameOutside (s.regs .rsp) s.mem t.mem := by
    rw [asks.mem]
    exact written.outside
  have writes : t.Writes 1 bs := by
    refine ⟨number, descriptor, ?_, ?_⟩
    · rw [length, written.rsp, written.start, sub_add_cancel, sub_sub_cancel, BitVec.toNat_ofNat]
      exact Nat.mod_eq_of_lt (by omega)
    · rw [asks.mem, from_]
      exact written.bytes
  refine .outcomes (pc ▸ c.carries.part 21 4 (by decide)) done (by decide) (fun v quiet => ?_) ?_
  · show SameOutside _ _ v.mem
    rw [quiet.mem]
    exact written.outside
  refine .syscall (tpc ▸ c.carries.fetch rfl) (by rw [number]; decide) same fun v answer => ?_
  have silent : v.mem = t.mem := answer.mem number
  have rsp : v.regs .rsp = s.regs .rsp - 32 := by
    rw [answer.regs .rsp (by decide) (by decide), asks.rsp, written.rsp]
  have kept : SameOutside (s.regs .rsp) s.mem v.mem := by
    rw [silent]
    exact same
  let x : State := (((v.goto (t.pc + 1)).set .rsp (v.regs .rsp + 32)).forget).goto (t.pc + 1 + 1)
  have back : x.regs .rsp = s.regs .rsp := by
    show v.regs .rsp + 32 = s.regs .rsp
    rw [rsp, sub_add_cancel]
  have frees : M.code[t.pc + 1]? = some (.arith .add (.reg .rsp) (.imm 32)) := by
    rw [tpc]
    exact c.carries.fetch (k := 26) rfl
  have ends : M.code[t.pc + 1 + 1]? = some .ret := by
    rw [tpc]
    exact c.carries.fetch (k := 27) rfl
  refine .outcome (s := v.goto (t.pc + 1)) frees rfl kept ?_
  refine .ret (q := q) (s := x) ends c.address c.into ?_ kept (.here ?_)
  · show M.layout.address q = v.mem.load (x.regs .rsp)
    rw [c.back, back, kept.load]
    rfl
  · exact ⟨⟨t, rfl, writes⟩, rfl, rfl, congrArg (· + 8) back, kept⟩

/-- From behind the digits on the sign is put in front. -/
theorem sign {negative : Bool} (c : PrintCall M s q e) (pc : u.pc = e + 17)
    (written : s.Written bs u) (few : bs.length < 32) (flag : u.regs .r8 = truth negative) :
    M.Ends (Way s) (s.Printed (signBytes negative ++ bs) q calls) [] ⟨u, fr :: calls⟩ := by
  have tests : M.code[u.pc]? = some (.testReg .r8) := pc ▸ c.carries.fetch (k := 17) rfl
  have skips : M.code[u.pc + 1]? = some (.jump .z ".write") := by
    rw [pc]
    exact c.carries.fetch (k := 18) rfl
  have zero : Cond.z.holds (.ofConjunction (u.regs .r8) (u.regs .r8)) = !negative := by
    rw [flag]
    cases negative <;> rfl
  have keeps : ∀ x, u.Quiet x → Way s ⟨x, fr :: calls⟩ := by
    intro x same
    show SameOutside _ _ x.mem
    rw [same.mem]
    exact written.outside
  refine .test tests skips (c.carries.label ".write" 21 rfl) zero keeps fun w regs mem wpc => ?_
  have put : s.Written bs w := written.congr regs mem
  cases negative with
  | false =>
    rw [signBytes, if_neg Bool.false_ne_true, List.nil_append]
    exact c.write wpc put (Nat.le_of_lt few)
  | true =>
    have moves : M.code[w.pc]? = some (.unary .dec (.reg .rsi)) := by
      rw [wpc, pc]
      exact c.carries.fetch (k := 19) rfl
    have puts : M.code[w.pc + 1]? = some (.mov (.byte (.at .rsi)) (.char '-')) := by
      rw [wpc, pc]
      exact c.carries.fetch (k := 20) rfl
    have next : w.pc + 1 + 1 = e + 21 := by
      rw [wpc, pc]
      rfl
    refine .outcome moves rfl put.outside ?_
    refine .outcome puts rfl put.outside ?_
    exact c.write next (put.cons few rfl rfl rfl) few

/-- From `.next` on the digits of `rax` are put in front. -/
theorem rounds {negative : Bool} {v : Nat} (c : PrintCall M s q e) (pc : u.pc = e + 10)
    (written : s.Written bs u) (room : (digitBytes v).length + bs.length < 32)
    (number : (u.regs .rax).toNat = v) (ten : u.regs .rcx = 10)
    (flag : u.regs .r8 = truth negative) :
    M.Ends (Way s) (s.Printed (signBytes negative ++ (digitBytes v ++ bs)) q calls) []
      ⟨u, fr :: calls⟩ := by
  induction v using Nat.strongRecOn generalizing u bs with
  | ind v ih =>
    have few : bs.length < 31 := by
      have := length_digitBytes_pos v
      omega
    obtain ⟨t, done, quiet, tpc, quotient, digit, start, tten, tflag⟩ :=
      outcomes_digit (L := M.layout) ten
    have stores : M.code[t.pc]? = some (.mov (.mem (.at .rsi)) (.low .dl)) := by
      rw [tpc, pc]
      exact c.carries.fetch (k := 14) rfl
    have tests : M.code[t.pc + 1]? = some (.testReg .rax) := by
      rw [tpc, pc]
      exact c.carries.fetch (k := 15) rfl
    have again : M.code[t.pc + 1 + 1]? = some (.jump .nz ".next") := by
      rw [tpc, pc]
      exact c.carries.fetch (k := 16) rfl
    have keeps : ∀ x, u.Quiet x → Way s ⟨x, fr :: calls⟩ := by
      intro x same
      show SameOutside _ _ x.mem
      rw [same.mem]
      exact written.outside
    refine .outcomes (pc ▸ c.carries.part 10 4 (by decide)) done (by decide) keeps ?_
    refine .outcome stores rfl (keeps t quiet) ?_
    have longer : s.Written (digitByte v :: bs) { t with
        mem := t.mem.storeByte (t.regs .rsi) ((t.regs .rdx).setWidth 8) } := by
      refine written.cons (by omega) quiet.rsp start ?_
      rw [start, digit, number, quiet.mem]
    have nonzero : Cond.nz.holds (.ofConjunction (t.regs .rax) (t.regs .rax))
        = decide (10 ≤ v) := by
      have zero : t.regs .rax = 0 ↔ ¬ 10 ≤ v := by
        rw [← BitVec.toNat_inj, quotient, number]
        show v / 10 = 0 ↔ _
        omega
      show (!((t.regs .rax &&& t.regs .rax) == 0)) = _
      rw [BitVec.and_self, Bool.beq_eq_decide_eq, ← decide_not]
      exact decide_eq_decide.2 ((not_congr zero).trans not_not)
    refine .test tests again (c.carries.label ".next" 10 rfl) nonzero ?_ fun w regs mem wpc => ?_
    · intro x same
      show SameOutside _ _ x.mem
      rw [same.mem]
      exact longer.outside
    have put : s.Written (digitByte v :: bs) w := longer.congr regs mem
    have wflag : w.regs .r8 = truth negative := by rw [regs, ← flag, ← tflag]; rfl
    rcases Nat.lt_or_ge v 10 with small | ge
    · rw [decide_eq_false (Nat.not_le.2 small)] at wpc
      rw [digitBytes_of_lt small]
      have next : w.pc = e + 17 := by
        rw [wpc]
        show t.pc + 1 + 2 = e + 17
        omega
      exact c.sign next put (Nat.succ_lt_succ few) wflag
    · rw [decide_eq_true ge] at wpc
      rw [digitBytes_of_ge ge] at room ⊢
      rw [List.append_assoc]
      rw [List.length_append] at room
      have wquotient : (w.regs .rax).toNat = v / 10 := by
        rw [regs, ← number]
        exact quotient
      have wten : w.regs .rcx = 10 := by
        rw [regs]
        exact tten
      refine ih (v / 10) (Nat.div_lt_self (by omega) (by decide)) wpc put ?_ wquotient wten wflag
      calc (digitBytes (v / 10)).length + (bs.length + 1)
          = (digitBytes (v / 10)).length + 1 + bs.length := Nat.add_right_comm .. ▸ rfl
        _ < 32 := room

/-- From `.digits` on a line feed is put at the end, and everything else in front of it. -/
theorem digits {negative : Bool} {v : Nat} (c : PrintCall M s q e) (pc : u.pc = e + 7)
    (rsp : u.regs .rsp = s.regs .rsp - 32) (outside : SameOutside (s.regs .rsp) s.mem u.mem)
    (room : (digitBytes v).length + 1 < 32) (number : (u.regs .rax).toNat = v)
    (flag : u.regs .r8 = truth negative) :
    M.Ends (Way s) (s.Printed (signBytes negative ++ (digitBytes v ++ [10])) q calls) []
      ⟨u, fr :: calls⟩ := by
  have points : M.code[u.pc]? = some (.lea .rsi (.offset .rsp 31)) :=
    pc ▸ c.carries.fetch (k := 7) rfl
  have feeds : M.code[u.pc + 1]? = some (.mov (.byte (.at .rsi)) (.imm 10)) := by
    rw [pc]
    exact c.carries.fetch (k := 8) rfl
  have divisor : M.code[u.pc + 1 + 1]? = some (.movImm .rcx 10) := by
    rw [pc]
    exact c.carries.fetch (k := 9) rfl
  have last : u.regs .rsp + 31 = s.regs .rsp - 1 := by
    rw [rsp, sub_add]
    rfl
  have none : s.Written [] (u.set .rsi (s.regs .rsp)) :=
    ⟨rsp, outside, (BitVec.sub_zero _).symm, trivial⟩
  let fed : State := ((u.set .rsi (u.regs .rsp + 31)).set .rcx 10).goto (u.pc + 1 + 1 + 1)
  have line : s.Written [10] { fed with mem := u.mem.storeByte (u.regs .rsp + 31) 10 } := by
    refine none.cons (by decide) rfl last ?_
    rw [last]
    rfl
  refine .outcome points rfl outside ?_
  refine .outcome feeds rfl outside ?_
  refine .outcome divisor rfl line.outside ?_
  exact c.rounds (congrArg (· + 1 + 1 + 1) pc) (line.congr rfl rfl) room number rfl flag

/-- The routine writes the number on a line of its own and returns. -/
theorem ends {n : Int64} (c : PrintCall M s q s.pc) (given : s.regs .rdi = n.toBitVec) :
    M.Ends (Way s) (s.Printed (decimalLine n.toInt) q calls) [] ⟨s, fr :: calls⟩ := by
  let u : State := (((s.set .rsp (s.regs .rsp - 32)).set .rax (s.regs .rdi)).set .r8
    (s.regs .r8 ^^^ s.regs .r8)).forget.goto (s.pc + 1 + 1 + 1)
  have reserves : M.code[s.pc]? = some (.arith .sub (.reg .rsp) (.imm 32)) :=
    c.carries.fetch (k := 0) rfl
  have copies : M.Holds (s.pc + 1) [.movReg .rax .rdi, .arithReg .xor .r8 .r8] :=
    c.carries.part 1 2 (by decide)
  have tests : M.code[u.pc]? = some (.testReg .rax) := c.carries.fetch (k := 3) rfl
  have jumps : M.code[u.pc + 1]? = some (.jump .ns ".digits") := c.carries.fetch (k := 4) rfl
  have silent : ∀ y : State, y.mem = s.mem → Way s ⟨y, fr :: calls⟩ := by
    intro y mem
    show SameOutside _ _ y.mem
    rw [mem]
    exact fun _ _ => rfl
  have nonneg : Cond.ns.holds (.ofConjunction (u.regs .rax) (u.regs .rax))
      = !decide (n.toInt < 0) := by
    show (!(s.regs .rdi &&& s.regs .rdi).msb) = _
    rw [BitVec.and_self, given, BitVec.msb_eq_toInt]
    rfl
  refine .outcome reserves rfl (silent s rfl) ?_
  refine .outcomes copies rfl (by decide) (fun y quiet => silent y quiet.mem) ?_
  refine .test (s := u) tests jumps (c.carries.label ".digits" 7 rfl) nonneg
    (fun y quiet => silent y quiet.mem) fun w regs mem wpc => ?_
  have clear : w.regs .r8 = 0 := by
    rw [regs]
    exact BitVec.xor_self
  have number : w.regs .rax = n.toBitVec := by
    rw [regs, ← given]
    rfl
  have rsp : w.regs .rsp = s.regs .rsp - 32 := by
    rw [regs]
    rfl
  have room : (digitBytes n.toInt.natAbs).length + 1 < 32 := by
    have low := Int64.le_toInt n
    have high := Int64.toInt_lt n
    have := length_digitBytes_le (n := n.toInt.natAbs) (k := 18) (by omega)
    omega
  rw [decimalLine_eq]
  by_cases sign : n.toInt < 0
  · rw [decide_eq_true sign] at wpc ⊢
    have negates : M.Holds w.pc [.unary .neg (.reg .rax), .movImm .r8 1] :=
      wpc ▸ c.carries.part 5 2 (by decide)
    refine .outcomes negates rfl (by decide) (fun y quiet => silent y (quiet.mem.trans mem)) ?_
    refine c.digits (congrArg (· + 1 + 1) wpc) rsp (silent w mem) room ?_ rfl
    show (-w.regs .rax).toNat = _
    rw [number]
    exact toNat_neg_of_neg sign
  · rw [decide_eq_false sign] at wpc ⊢
    refine c.digits wpc rsp (silent w mem) room ?_ clear
    rw [number]
    exact toNat_of_nonneg sign

end PrintCall

end Asm

open Asm

/-- Decimal output is correct for every 64-bit number. Called with a number in `rdi` and an address
of the program on top of the stack, it returns there, wherever there is a choice, after one system
call: the write of the number's decimal form and a line feed to descriptor 1. On the way memory
changes in the 32 bytes below the stack at most, and the stack is back as it was without the return
address. -/
theorem Program.print_decimal {M : Image} {p : Program} {tables : Tables} {limits : Limits}
    {text file : String} {s : State} {q : Nat} {n : Int64} {fr : Asm.Frame}
    {calls : List Asm.Frame} (ok : Program.ofText limits text file = .ok (p, tables))
    (lines : M.lines = p.lines tables limits)
    (address : ∀ a < M.code.length, ∀ b < M.code.length,
      M.layout.address a = M.layout.address b → a = b)
    (entry : position? "print_decimal" M.lines = some s.pc) (into : q < M.code.length)
    (back : M.layout.address q = s.top) (given : s.regs .rdi = n.toBitVec) :
    M.Ends (fun c => SameOutside (s.regs .rsp) s.mem c.state.mem)
      (s.Printed (decimalLine n.toInt) q calls) [] ⟨s, fr :: calls⟩ := by
  obtain ⟨e, here, carries⟩ := Program.carries ok lines (r := .printDecimal) (List.mem_cons_self ..)
  obtain rfl : s.pc = e := Option.some.inj (entry.symm.trans here)
  exact PrintCall.ends ⟨carries, address, into, back⟩ given

/-- In decimal output with the lowest number, called from the end of `keepOnce`. -/
def beforePrint : State where
  regs r :=
    match r with
    | .rsp => 200000
    | .rdi => 0x8000000000000000
    | _ => 0
  flags := none
  mem := Memory.store (fun _ => 0) 200000 54
  pc := 0

theorem print_decimal_lowest :
    keepImage.Ends (fun c => SameOutside (beforePrint.regs .rsp) beforePrint.mem c.state.mem)
      (beforePrint.Printed (utf8Bytes "-9223372036854775808\n") 54 []) []
      ⟨beforePrint, [⟨"print_decimal", beforeKeep⟩]⟩ := by
  have line : decimalLine Int64.minValue.toInt = utf8Bytes "-9223372036854775808\n" := by
    decide +kernel
  have entry : position? "print_decimal" keepImage.lines = some 0 := by decide +kernel
  have into : 54 < keepImage.code.length := by decide +kernel
  have back : keepImage.layout.address 54 = beforePrint.top := (Memory.load_store_same ..).symm
  have given : beforePrint.regs .rdi = Int64.minValue.toBitVec := by decide
  have fits : Layout.usual.Fits {} keepImage.code.length := Layout.fits_usual (by decide +kernel)
  rw [← line]
  exact Program.print_decimal (M := keepImage) (s := beforePrint) (n := Int64.minValue)
    ofText_keepOnce rfl fits.address entry into back given

end PinnedStack
