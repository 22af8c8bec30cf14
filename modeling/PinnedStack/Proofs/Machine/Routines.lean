import PinnedStack.Proofs.Emission.Whole
import PinnedStack.Proofs.Machine.Bodies
import PinnedStack.Proofs.Machine.Forced

/-!
# The routines return

* `RoutineCall` — a program in memory with the place of a routine that some state calls.
* `Serving` — the routine is at work and keeps its return address on the data stack.
* `Served` — the routine has returned; registers `rsp` and `r15`, the pins and the return stack are as
  they were.
* `RoutineCall.returns` — each sound run of a routine to a mark goes through such a state.
-/

namespace PinnedStack

open Asm

/-- A program in memory, a routine at position `e`, and a state in front of a call. -/
structure RoutineCall (M : Image) (whole : List MarkedLine) (limits : Limits) (t : State)
    (r : Routine) (e : Nat) : Prop where
  lines : M.lines = whole.map Prod.fst
  labels : (labelsOf (whole.map Prod.fst)).Nodup
  fits : M.layout.Fits limits M.code.length
  inside : t.pc + 1 < M.code.length
  here : RoutineAt whole r e

/-- A routine that was called in state `t` has moved `rsp` down by some bytes. -/
structure Serving (L : Layout) (t : State) (bytes : Nat) (u : State) : Prop where
  rsp : u.regs .rsp = t.regs .rsp - BitVec.ofNat 64 bytes
  r15 : u.regs .r15 = t.regs .r15
  spares : Memory.Spares L t.mem u.mem
  back : u.mem.load (t.regs .rsp - 8) = L.address (t.pc + 1)

/-- A routine that was called in state `t` has returned. -/
structure Served (L : Layout) (t : State) (calls : List Asm.Frame) (d : Config) : Prop where
  calls : d.calls = calls
  pc : d.state.pc = t.pc + 1
  rsp : d.state.regs .rsp = t.regs .rsp
  r15 : d.state.regs .r15 = t.regs .r15
  spares : Memory.Spares L t.mem d.state.mem

theorem Serving.quiet {L : Layout} {t u v : State} {bytes : Nat} (serving : Serving L t bytes u)
    (quiet : u.Quiet v) : Serving L t bytes v where
  rsp := quiet.rsp.trans serving.rsp
  r15 := quiet.r15.trans serving.r15
  spares := quiet.mem ▸ serving.spares
  back := quiet.mem ▸ serving.back

theorem Serving.goto {L : Layout} {t u : State} {bytes : Nat} (serving : Serving L t bytes u)
    (q : Nat) : Serving L t bytes (u.goto q) :=
  ⟨serving.rsp, serving.r15, serving.spares, serving.back⟩

/-- A byte that is written into the 32 bytes below the return address. -/
theorem Serving.byte {L : Layout} {limits : Limits} {extent : Nat} {t u : State}
    (serving : Serving L t 40 u) (fits : L.Fits limits extent)
    (room : L.dataStack + 40 ≤ (t.regs .rsp).toNat) {a : Word}
    (low : (t.regs .rsp).toNat ≤ a.toNat + 40) (high : a.toNat + 8 < (t.regs .rsp).toNat)
    (b : Byte) : Serving L t 40 { u with mem := u.mem.storeByte a b } := by
  have gap := fits.gap
  have top : (t.regs .rsp - 8).toNat = (t.regs .rsp).toNat - 8 := toNat_sub_ofNat (n := 8) (by omega)
  refine ⟨serving.rsp, serving.r15, fun x ge less => ?_, ?_⟩
  · have apart : x ≠ a := by
      rintro rfl
      omega
    exact (Memory.storeByte_of_ne apart).trans (serving.spares x ge less)
  · refine Eq.trans (Memory.load_congr fun i less => Memory.storeByte_of_ne ?_) serving.back
    intro eq
    have inside := (t.regs .rsp).isLt
    have same := congrArg BitVec.toNat eq
    rw [toNat_add_ofNat (by omega), top] at same
    omega

namespace RoutineCall

variable {M : Image} {whole : List MarkedLine} {limits : Limits} {calls : List Asm.Frame}
  {fr : Asm.Frame} {t s : State} {r : Routine} {e n : Nat}

theorem target (c : RoutineCall M whole limits t r e) {l : String} {j : Nat}
    (found : position? l r.lines = some j) : position? l (whole.map Prod.fst) = some (e + j) :=
  c.here.lines.position c.labels (by rwa [unmarked_lines])

theorem item (c : RoutineCall M whole limits t r e) {q : Nat} (j : Nat) (eq : q = e + j)
    (less : j < (itemsOf (unmarked r.lines)).length) :
    (itemsOf whole)[q]? = (itemsOf (unmarked r.lines))[j]? := by
  rw [eq]
  exact c.here.lines.at less

/-- The lines of the routine behind its first `k` lines. -/
theorem block (c : RoutineCall M whole limits t r e) {q : Nat} (k : Nat)
    (eq : q = e + (itemsOf ((unmarked r.lines).take k)).length) :
    Placed whole q ((unmarked r.lines).drop k) :=
  (c.here.lines.drop k).move eq.symm

theorem ret (c : RoutineCall M whole limits t r e) (serving : Serving M.layout t 8 s)
    (found : (itemsOf whole)[s.pc]? = some (.ret, none)) :
    M.Reaches whole (Served M.layout t calls) n ⟨s, fr :: calls⟩ := by
  refine .step ⟨_, found⟩ fun d sound m less => .here ?_
  have back : M.layout.address (t.pc + 1) = s.top := by
    rw [State.top, serving.rsp]
    exact serving.back.symm
  obtain rfl := (Image.step_ret_iff (Image.fetch c.lines found) c.fits.address c.inside back).1
    sound.step
  refine ⟨rfl, rfl, ?_, serving.r15, serving.spares⟩
  rw [State.goto_regs, State.pop_rsp, serving.rsp]
  exact BitVec.sub_add_cancel ..

/-! ## Comparison -/

theorem strEqual_done (c : RoutineCall M whole limits t .strEqual e) (pc : s.pc = e + 13)
    (serving : Serving M.layout t 8 s) :
    M.Reaches whole (Served M.layout t calls) n ⟨s, fr :: calls⟩ :=
  c.ret serving (c.item 13 pc (by decide))

theorem strEqual_equal (c : RoutineCall M whole limits t .strEqual e) (pc : s.pc = e + 12)
    (serving : Serving M.layout t 8 s) :
    M.Reaches whole (Served M.layout t calls) n ⟨s, fr :: calls⟩ := by
  have one : Placed whole s.pc (unmarked (instrs [.movImm .rax 1]) ++ _) := c.block 14 pc
  refine .straight c.lines one (by decide) fun u effects => c.strEqual_done ?_ ?_
  · rw [Image.effects_pc effects, pc]
    rfl
  · exact serving.quiet (Image.effects_quiet effects (by decide))

/-- Each round of the comparison takes one from the count. -/
theorem strEqual_rounds (c : RoutineCall M whole limits t .strEqual e) {count : Nat}
    (eq : (s.regs .rcx).toNat = count) (pc : s.pc = e + 3) (serving : Serving M.layout t 8 s) :
    M.Reaches whole (Served M.layout t calls) n ⟨s, fr :: calls⟩ := by
  induction count using Nat.strongRecOn generalizing s with
  | ind count ih =>
    have test : Placed whole s.pc (unmarked (instrs [.testReg .rcx]) ++ _) := c.block 4 pc
    refine .straight c.lines test (by decide) fun u effects => ?_
    cases effects
    refine .jump c.lines (c.item 4 (congrArg (· + 1) pc) (by decide)) (c.target rfl)
      (fun _ => c.strEqual_equal rfl ⟨serving.rsp, serving.r15, serving.spares, serving.back⟩)
      fun allows => ?_
    have nonzero : s.regs .rcx ≠ 0 := by
      intro zero
      have flag := allows _ rfl
      simp [Cond.holds, Flags.ofConjunction, zero] at flag
    have bytes : Placed whole (s.pc + 2) (unmarked (instrs [.mov (.low .r8b) (.mem (.at .rdi)),
        .cmp (.low .r8b) (.mem (.at .rsi))]) ++ _) := c.block 6 (congrArg (· + 2) pc)
    refine .straight c.lines bytes (by decide) fun u effects => ?_
    cases effects
    refine .jump c.lines (c.item 7 (congrArg (· + 4) pc) (by decide)) (c.target rfl)
      (fun _ => c.strEqual_done rfl ⟨serving.rsp, serving.r15, serving.spares, serving.back⟩)
      fun _ => ?_
    have next : Placed whole (s.pc + 5) (unmarked (instrs [.unary .inc (.reg .rdi),
        .unary .inc (.reg .rsi), .unary .dec (.reg .rcx)]) ++ _) :=
      c.block 9 (congrArg (· + 5) pc)
    refine .straight c.lines next (by decide) fun u effects => ?_
    cases effects
    refine .jmp c.lines (c.item 11 (congrArg (· + 8) pc) (by decide)) (c.target rfl) ?_
    refine ih (s.regs .rcx - 1).toNat ?_ rfl rfl
      ⟨serving.rsp, serving.r15, serving.spares, serving.back⟩
    have positive : 0 < (s.regs .rcx).toNat :=
      Nat.pos_of_ne_zero fun zero => nonzero (BitVec.eq_of_toNat_eq zero)
    have less : (s.regs .rcx - 1).toNat = (s.regs .rcx).toNat - 1 :=
      toNat_sub_ofNat (n := 1) positive
    omega

theorem strEqual_returns (c : RoutineCall M whole limits t .strEqual e) (pc : s.pc = e)
    (serving : Serving M.layout t 8 s) :
    M.Reaches whole (Served M.layout t calls) n ⟨s, fr :: calls⟩ := by
  have first : Placed whole s.pc (unmarked (instrs [.arithReg .xor .rax .rax,
      .cmp (.reg .rcx) (.reg .rdx)]) ++ _) := c.block 0 pc
  refine .straight c.lines first (by decide) fun u effects => ?_
  have quiet := Image.effects_quiet effects (by decide)
  have two : u.pc = e + 2 := by
    rw [Image.effects_pc effects, pc]
    rfl
  refine .jump c.lines (c.item 2 two (by decide)) (c.target rfl) (fun _ => ?_) fun _ => ?_
  · exact c.strEqual_done rfl ((serving.quiet quiet).goto _)
  · exact c.strEqual_rounds rfl (congrArg (· + 1) two) ((serving.quiet quiet).goto _)

/-! ## Decimal output -/

theorem printDecimal_write (c : RoutineCall M whole limits t .printDecimal e) (pc : s.pc = e + 21)
    (serving : Serving M.layout t 40 s) :
    M.Reaches whole (Served M.layout t calls) n ⟨s, fr :: calls⟩ := by
  have first : Placed whole s.pc (unmarked (instrs [.movImm .rax 1, .movImm .rdi 1,
      .lea .rdx (.offset .rsp 32), .arithReg .sub .rdx .rsi]) ++ _) := c.block 24 pc
  refine .straight c.lines first (by decide) fun u effects => ?_
  cases effects
  have found := c.item 25 (congrArg (· + 4) pc) (by decide)
  refine .step ⟨_, found⟩ fun d sound m less => ?_
  obtain ⟨w, answer, rfl⟩ := sound.step.of_syscall (Image.fetch c.lines found)
  have mem : w.mem = s.mem := answer.mem rfl
  have rsp : w.regs .rsp = s.regs .rsp := answer.regs .rsp (by decide) (by decide)
  have r15 : w.regs .r15 = s.regs .r15 := answer.regs .r15 (by decide) (by decide)
  have last : Placed whole (s.pc + 5) (unmarked (instrs [.arith .add (.reg .rsp) (.imm 32)]) ++ _) :=
    c.block 29 (congrArg (· + 5) pc)
  refine .straight c.lines last (by decide) fun u effects => ?_
  cases effects
  have raised : w.regs .rsp + 32 = t.regs .rsp - BitVec.ofNat 64 8 := by
    rw [rsp, serving.rsp]
    bv_omega
  refine c.ret ⟨raised, r15.trans serving.r15, ?_, ?_⟩ (c.item 27 (congrArg (· + 6) pc) (by decide))
  · exact fun x low less => (congrFun mem x).trans (serving.spares x low less)
  · exact (congrArg (fun m => Memory.load m _) mem).trans serving.back

/-- A division of a word that nothing stands in front of. -/
theorem div_eq {s t : State} {d : Word} (clear : s.regs .rdx = 0) (done : s.div d = some t) :
    t = (s.set .rax (BitVec.ofNat 64 ((s.regs .rax).toNat / d.toNat))).set .rdx
      (BitVec.ofNat 64 ((s.regs .rax).toNat % d.toNat)) := by
  have zero : (s.regs .rdx).toNat = 0 := by
    rw [clear]
    rfl
  rw [State.div] at done
  simp only [zero, Nat.zero_mul, Nat.zero_add] at done
  split at done
  · cases done
  · exact (Option.some.inj done).symm

/-- One round makes a digit and leaves the number without it. -/
theorem printDecimal_digit {L : Layout} {extent : Nat} (fits : L.Fits limits extent) {u : State}
    (room : L.dataStack + 40 ≤ (t.regs .rsp).toNat) (serving : Serving L t 40 s)
    (ten : s.regs .rcx = 10) (low : (t.regs .rsp).toNat ≤ (s.regs .rsi).toNat + 39)
    (high : (s.regs .rsi).toNat + 7 < (t.regs .rsp).toNat)
    (done : Image.effects L [.arithReg .xor .rdx .rdx, .unary .div (.reg .rcx),
      .arith .add (.low .dl) (.char '0'), .unary .dec (.reg .rsi), .mov (.mem (.at .rsi)) (.low .dl),
      .testReg .rax] s = some u) :
    Serving L t 40 u ∧ u.regs .rcx = 10 ∧ u.regs .rsi = s.regs .rsi - 1
      ∧ (u.regs .rax).toNat = (s.regs .rax).toNat / 10
      ∧ u.flags = some (.ofConjunction (u.regs .rax) (u.regs .rax)) := by
  obtain ⟨v, clear, done⟩ := Option.bind_eq_some_iff.1 done
  have cleared : v.regs .rdx = 0 ∧ v.regs .rax = s.regs .rax ∧ v.regs .rcx = 10
      ∧ v.regs .rsi = s.regs .rsi ∧ s.Quiet v := by
    cases clear
    exact ⟨BitVec.xor_self, rfl, ten, rfl, rfl, rfl, rfl⟩
  obtain ⟨zero, rax, ten, rsi, quiet⟩ := cleared
  obtain ⟨w, divide, done⟩ := Option.bind_eq_some_iff.1 done
  have divided : w.regs .rax = BitVec.ofNat 64 ((s.regs .rax).toNat / 10) ∧ w.regs .rcx = 10
      ∧ w.regs .rsi = s.regs .rsi ∧ v.Quiet w := by
    obtain ⟨x, quotient, rfl⟩ := Option.map_eq_some_iff.1 divide
    have quotient : (v.goto (s.pc + 1)).div (v.regs .rcx) = some x := quotient
    rw [ten] at quotient
    obtain rfl := @div_eq (v.goto (s.pc + 1)) x 10 zero quotient
    exact ⟨congrArg (fun a : Word => BitVec.ofNat 64 (a.toNat / 10)) rax, ten, rsi, rfl, rfl, rfl⟩
  obtain ⟨rax, ten, rsi, quiet'⟩ := divided
  have serving := (serving.quiet quiet).quiet quiet'
  have back : (w.regs .rsi - 1).toNat = (s.regs .rsi).toNat - 1 := by
    rw [rsi]
    exact toNat_sub_ofNat (n := 1) (by omega)
  have bits := (s.regs .rax).isLt
  cases done
  refine ⟨?_, ten, congrArg (· - 1) rsi, ?_, rfl⟩
  · have written := serving.byte fits room (a := w.regs .rsi - 1) (by omega) (by omega)
    exact ⟨serving.rsp, serving.r15, (written _).spares, (written _).back⟩
  · have kept : (w.regs .rax).toNat = (s.regs .rax).toNat / 10 := by
      rw [rax, BitVec.toNat_ofNat]
      omega
    exact kept

/-- Rounds of divisions by ten. Where `k` digits were made, the number that is left has at most
`20 - k`, so that they do not leave the 32 bytes. -/
theorem printDecimal_rounds (c : RoutineCall M whole limits t .printDecimal e)
    (room : M.layout.dataStack + 40 ≤ (t.regs .rsp).toNat) {value k : Nat}
    (eq : (s.regs .rax).toNat = value) (pc : s.pc = e + 10) (serving : Serving M.layout t 40 s)
    (ten : s.regs .rcx = 10) (place : (s.regs .rsi).toNat + k + 9 = (t.regs .rsp).toNat)
    (bound : value * 10 ^ k < 2 ^ 64) (few : k ≤ 19) :
    M.Reaches whole (Served M.layout t calls) n ⟨s, fr :: calls⟩ := by
  induction value using Nat.strongRecOn generalizing s k with
  | ind value ih =>
    have digit : Placed whole s.pc (unmarked (instrs [.arithReg .xor .rdx .rdx,
        .unary .div (.reg .rcx), .arith .add (.low .dl) (.char '0'), .unary .dec (.reg .rsi),
        .mov (.mem (.at .rsi)) (.low .dl), .testReg .rax]) ++ _) := c.block 12 pc
    refine .straight c.lines digit (by decide) fun u effects => ?_
    have six : u.pc = e + 16 := by
      rw [Image.effects_pc effects, pc]
      rfl
    obtain ⟨serving, ten, rsi, rest, flags⟩ :=
      printDecimal_digit c.fits room serving ten (by omega) (by omega) effects
    have back : (u.regs .rsi).toNat = (s.regs .rsi).toNat - 1 := by
      rw [rsi]
      exact toNat_sub_ofNat (n := 1) (by omega)
    refine .jump c.lines (c.item 16 six (by decide)) (c.target rfl) (fun allows => ?_) fun _ => ?_
    · have nonzero : u.regs .rax ≠ 0 := by
        intro zero
        have flag := allows _ flags
        simp [Cond.holds, Flags.ofConjunction, zero] at flag
      have positive : 0 < value / 10 := by
        rw [← eq, ← rest]
        exact Nat.pos_of_ne_zero fun zero => nonzero (BitVec.eq_of_toNat_eq zero)
      have smaller : value / 10 * 10 ^ (k + 1) < 2 ^ 64 := by
        rw [Nat.pow_succ', ← Nat.mul_assoc]
        exact Nat.lt_of_le_of_lt (Nat.mul_le_mul_right _ (Nat.div_mul_le_self ..)) bound
      refine ih (value / 10) (by omega) (k := k + 1) (eq ▸ rest) rfl (serving.goto _) ten ?_ smaller ?_
      · rw [State.goto_regs]
        omega
      · by_contra many
        obtain rfl : k = 19 := by omega
        omega
    · have sign : Placed whole (u.pc + 1) (unmarked (instrs [.testReg .r8]) ++ _) :=
        c.block 19 (congrArg (· + 1) six)
      refine .straight c.lines sign (by decide) fun v effects => ?_
      cases effects
      refine .jump c.lines (c.item 18 (congrArg (· + 2) six) (by decide)) (c.target rfl) (fun _ => ?_)
        fun _ => ?_
      · exact c.printDecimal_write rfl ⟨serving.rsp, serving.r15, serving.spares, serving.back⟩
      · have minus : Placed whole (u.pc + 3) (unmarked (instrs [.unary .dec (.reg .rsi),
            .mov (.byte (.at .rsi)) (.char '-')]) ++ _) := c.block 21 (congrArg (· + 3) six)
        refine .straight c.lines minus (by decide) fun v effects => ?_
        cases effects
        have last : (u.regs .rsi - 1).toNat = (u.regs .rsi).toNat - 1 :=
          toNat_sub_ofNat (n := 1) (by omega)
        have written := serving.byte c.fits room (a := u.regs .rsi - 1) (by omega) (by omega)
        exact c.printDecimal_write (congrArg (· + 5) six)
          ⟨serving.rsp, serving.r15, (written _).spares, (written _).back⟩

theorem printDecimal_digits (c : RoutineCall M whole limits t .printDecimal e)
    (room : M.layout.dataStack + 40 ≤ (t.regs .rsp).toNat) (pc : s.pc = e + 7)
    (serving : Serving M.layout t 40 s) :
    M.Reaches whole (Served M.layout t calls) n ⟨s, fr :: calls⟩ := by
  have feed : Placed whole s.pc (unmarked (instrs [.lea .rsi (.offset .rsp 31),
      .mov (.byte (.at .rsi)) (.imm 10), .movImm .rcx 10]) ++ _) := c.block 8 pc
  refine .straight c.lines feed (by decide) fun u effects => ?_
  cases effects
  have top : (s.regs .rsp + BitVec.ofNat 64 31).toNat + 9 = (t.regs .rsp).toNat := by
    have base : (s.regs .rsp).toNat = (t.regs .rsp).toNat - 40 := by
      rw [serving.rsp]
      exact toNat_sub_ofNat (by omega)
    have inside := (t.regs .rsp).isLt
    rw [toNat_add_ofNat (by omega)]
    omega
  have written := serving.byte c.fits room (a := s.regs .rsp + BitVec.ofNat 64 31) (by omega)
    (by omega)
  refine c.printDecimal_rounds room (k := 0) rfl (congrArg (· + 3) pc)
    ⟨serving.rsp, serving.r15, (written _).spares, (written _).back⟩ rfl top ?_ (by omega)
  rw [Nat.pow_zero, Nat.mul_one]
  exact BitVec.isLt _

/-- Decimal output returns. -/
theorem printDecimal_returns (c : RoutineCall M whole limits t .printDecimal e)
    (data : M.layout.dataStack ≤ (t.regs .rsp).toNat) (pc : s.pc = e)
    (serving : Serving M.layout t 8 s) :
    M.Reaches whole (Served M.layout t calls) n ⟨s, fr :: calls⟩ := by
  have gap := c.fits.gap
  have high := c.fits.high
  have found := c.item 0 pc (by decide)
  refine .step ⟨_, found⟩ fun d sound m less => ?_
  obtain ⟨u, done, rfl⟩ := sound.step.of_plain (Image.fetch c.lines found) rfl
  cases done
  have moved : s.regs .rsp - 32 = t.regs .rsp - BitVec.ofNat 64 40 := by
    rw [serving.rsp]
    bv_omega
  have bytes : (t.regs .rsp - BitVec.ofNat 64 40).toNat = (t.regs .rsp).toNat - 40 :=
    toNat_sub_ofNat (by omega)
  have room : M.layout.dataStack + 40 ≤ (t.regs .rsp).toNat := by
    have on : M.layout.dataStack ≤ (s.regs .rsp - 32).toNat ∨ M.layout.returnStack
        ≤ (s.regs .rsp - 32).toNat ∧ (s.regs .rsp - 32).toNat ≤ M.layout.returnEnd := sound.onStack
    rw [moved, bytes] at on
    omega
  have serving : Serving M.layout t 40 (((s.set .rsp (s.regs .rsp - 32)).forget).goto (s.pc + 1)) :=
    ⟨moved, serving.r15, serving.spares, serving.back⟩
  have start : Placed whole (s.pc + 1) (unmarked (instrs [.movReg .rax .rdi, .arithReg .xor .r8 .r8,
      .testReg .rax]) ++ _) := c.block 1 (congrArg (· + 1) pc)
  refine .straight c.lines start (by decide) fun u effects => ?_
  have first := serving.quiet (Image.effects_quiet effects (by decide))
  have four : u.pc = e + 4 := by
    rw [Image.effects_pc effects, State.goto_pc, pc]
    rfl
  refine .jump c.lines (c.item 4 four (by decide)) (c.target rfl)
    (fun _ => c.printDecimal_digits room rfl (first.goto _)) fun _ => ?_
  have negate : Placed whole (u.pc + 1) (unmarked (instrs [.unary .neg (.reg .rax),
      .movImm .r8 1]) ++ _) := c.block 5 (congrArg (· + 1) four)
  refine .straight c.lines negate (by decide) fun v effects => c.printDecimal_digits room ?_ ?_
  · rw [Image.effects_pc effects, State.goto_pc, four]
    rfl
  · exact (first.goto _).quiet (Image.effects_quiet effects (by decide))

/-- **A routine returns** to where it was called from, with the data stack, the pins and the return
stack as they were. -/
theorem returns (c : RoutineCall M whole limits t r e) (known : r ∈ Routine.all)
    (data : M.layout.dataStack ≤ (t.regs .rsp).toNat) (pc : s.pc = e)
    (serving : Serving M.layout t 8 s) :
    M.Reaches whole (Served M.layout t calls) n ⟨s, fr :: calls⟩ := by
  rcases List.mem_cons.1 known with rfl | known
  · exact c.printDecimal_returns data pc serving
  · obtain rfl := List.mem_singleton.1 known
    exact c.strEqual_returns pc serving

end RoutineCall

end PinnedStack
