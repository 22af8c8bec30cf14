import PinnedStack.Proofs.Machine.Keeping

/-!
# Instructions of a body

* `Layout.slot` — where a pin slot is. `Layout.Holds` — it is in the pin buffer.
* `Instr.Keeps` — the instructions of a body that pins some slots.
* `State.Carried` — what such an instruction leaves alone.
* `Instr.Advances`, `Instr.Keeps.step` — what it does: it carries the state on, and `rsp` moves with
  the level.
-/

namespace PinnedStack.Asm

def Layout.slot (L : Layout) (slot : Nat) : Word := BitVec.ofNat 64 (L.pins + 8 * slot)

/-- Is a slot in the pin buffer? -/
def Layout.Holds (L : Layout) (slot : Nat) : Prop := L.pins + 8 * slot + 8 ≤ L.returnPointer

/-- The instructions of a body that pins some slots. -/
inductive Instr.Keeps (own : Nat → Prop) : Instr → Prop where
  | quiet {i : Instr} (quiet : i.quiet = true) : Keeps own i
  | push {source : Operand} : Keeps own (.push source)
  | popReg {r : Reg} (free : (Operand.reg r).free = true) : Keeps own (.pop (.reg r))
  | popSlot {slot : Nat} (mine : own slot) : Keeps own (.pop (slotOperand slot))
  | popChosen {m : Mem} (chosen : (Instr.pop (.qword m)).changesChosen = true) :
      Keeps own (.pop (.qword m))
  | drop : Keeps own (.arith .add (.reg .rsp) (.imm 8))
  | addTop {n : Int} : Keeps own (.arith .add (.qword (.at .rsp)) (.imm n))
  | storeChosen {source : Operand} : Keeps own (.mov (.mem (.at .rax)) source)
  | syscall : Keeps own .syscall

/-- What an instruction of a body leaves alone. -/
structure State.Carried (L : Layout) (own : Nat → Prop) (s t : State) : Prop where
  r15 : t.regs .r15 = s.regs .r15
  data : L.dataStack ≤ (t.regs .rsp).toNat
  stack : ∀ x : Word, L.returnPointer ≤ x.toNat → x.toNat < L.returnEnd → t.mem x = s.mem x
  pins : ∀ slot, L.Holds slot → ¬ own slot →
    t.mem.load (L.slot slot) = s.mem.load (L.slot slot)

section Layout

variable {L : Layout} {limits : Limits} {extent : Nat}

theorem Layout.Fits.returnPointer_lt (fits : L.Fits limits extent) :
    L.pins + 8 ≤ L.returnPointer ∧ L.returnPointer + 8 = L.returnStack
      ∧ L.returnStack ≤ L.returnEnd ∧ L.returnEnd + 64 ≤ 2 ^ 64 := by
  have := fits.pins_size
  have := fits.pointer_size
  have := fits.stack_size
  have := fits.gap
  have := fits.high
  omega

theorem Layout.Fits.toNat_slot (fits : L.Fits limits extent) {slot : Nat} (holds : L.Holds slot) :
    (L.slot slot).toNat = L.pins + 8 * slot := by
  have := fits.returnPointer_lt
  unfold Layout.Holds at holds
  rw [Layout.slot, BitVec.toNat_ofNat]
  omega

theorem Layout.Fits.toNat_pointer (fits : L.Fits limits extent) :
    (L.symbol "ret_stack_rsp").toNat = L.returnPointer := by
  have := fits.returnPointer_lt
  rw [fits.pointer, BitVec.toNat_ofNat]
  omega

theorem Layout.Fits.holds (fits : L.Fits limits extent) {slot : Nat}
    (lt : slot < limits.pinCapacity) : L.Holds slot := by
  have := fits.pins_size
  unfold Layout.Holds
  omega

/-- The memory of a slot, by the register that leads to the pins. -/
theorem Layout.address_slot {s : State} (r15 : s.regs .r15 = BitVec.ofNat 64 L.pins) (slot : Nat) :
    (Mem.offset .r15 (slot * wordBytes)).address L s = L.slot slot := by
  rw [Mem.address, r15, Layout.slot, ← BitVec.ofNat_add, Nat.mul_comm]
  rfl

/-! ## Memory that is spared -/

theorem Memory.Spares.refl (L : Layout) (m : Memory) : Memory.Spares L m m := fun _ _ _ => rfl

theorem Memory.spares_store (fits : L.Fits limits extent) {m : Memory} {a w : Word}
    (high : L.returnEnd ≤ a.toNat) : Memory.Spares L m (m.store a w) := by
  intro x low lt
  have := fits.low
  exact Memory.store_of_lt (by omega) (by omega)

theorem Memory.Spares.stack (fits : L.Fits limits extent) {m m' : Memory}
    (h : Memory.Spares L m m') (x : Word) (low : L.returnPointer ≤ x.toNat)
    (high : x.toNat < L.returnEnd) : m' x = m x := by
  have := fits.returnPointer_lt
  exact h x (by omega) high

theorem Layout.Fits.load_slot (fits : L.Fits limits extent) {m m' : Memory}
    (same : ∀ x : Word, L.pins ≤ x.toNat → x.toNat < L.returnPointer → m' x = m x) {slot : Nat}
    (holds : L.Holds slot) : m'.load (L.slot slot) = m.load (L.slot slot) := by
  have := fits.returnPointer_lt
  have here := fits.toNat_slot holds
  unfold Layout.Holds at holds
  refine Memory.load_congr fun i lt => ?_
  have byte : (L.slot slot + BitVec.ofNat 64 i).toNat = L.pins + 8 * slot + i := by
    rw [toNat_add_ofNat (by omega), here]
  exact same _ (by omega) (by omega)

theorem Memory.Spares.load_slot (fits : L.Fits limits extent) {m m' : Memory}
    (h : Memory.Spares L m m') {slot : Nat} (holds : L.Holds slot) :
    m'.load (L.slot slot) = m.load (L.slot slot) := by
  have := fits.returnPointer_lt
  exact fits.load_slot (fun x low high => h x low (by omega)) holds

/-- Where nothing but other memory changes, the state is carried on. -/
theorem Memory.Spares.carried (fits : L.Fits limits extent) {own : Nat → Prop} {s t : State}
    (h : Memory.Spares L s.mem t.mem) (r15 : t.regs .r15 = s.regs .r15)
    (data : L.dataStack ≤ (t.regs .rsp).toNat) : s.Carried L own t :=
  ⟨r15, data, h.stack fits, fun _ holds _ => h.load_slot fits holds⟩

/-! ## Moves of `rsp` -/

theorem State.OnStack.push (fits : L.Fits limits extent) {s t : State}
    (rsp : t.regs .rsp = s.regs .rsp - 8) (on : t.OnStack L)
    (data : L.dataStack ≤ (s.regs .rsp).toNat) :
    L.dataStack ≤ (t.regs .rsp).toNat ∧ (t.regs .rsp).toNat + 8 = (s.regs .rsp).toNat := by
  have := fits.returnPointer_lt
  have := fits.gap
  have moved : (t.regs .rsp).toNat = (s.regs .rsp).toNat - 8 := by
    rw [rsp]
    exact toNat_sub_ofNat (n := 8) (by omega)
  unfold State.OnStack at on
  omega

theorem State.OnStack.pop (fits : L.Fits limits extent) {s t : State}
    (rsp : t.regs .rsp = s.regs .rsp + 8) (on : t.OnStack L)
    (data : L.dataStack ≤ (s.regs .rsp).toNat) :
    L.dataStack ≤ (t.regs .rsp).toNat ∧ (t.regs .rsp).toNat = (s.regs .rsp).toNat + 8 := by
  have := fits.returnPointer_lt
  have := fits.gap
  have := (s.regs .rsp).isLt
  have moved : (t.regs .rsp).toNat = ((s.regs .rsp).toNat + 8) % 2 ^ 64 := by
    rw [rsp, BitVec.toNat_add]
    rfl
  unfold State.OnStack at on
  omega

end Layout

theorem Instr.levelAfter_of_quiet {i : Instr} (quiet : i.quiet = true) (h : Nat) :
    i.levelAfter h = h := by
  cases i with
  | push => cases quiet
  | pop => cases quiet
  | arith op target source =>
    cases target with
    | reg r => cases op <;> cases r <;> first | rfl | cases quiet
    | _ => cases op <;> rfl
  | _ => rfl

/-! ## What an instruction of a body does -/

/-- An instruction of a body goes on to the next one, carries the state on, and moves `rsp` with the
level. -/
structure Instr.Advances (i : Instr) (L : Layout) (own : Nat → Prop) (s : State) (calls : List Frame)
    (c : Config) : Prop where
  calls_eq : c.calls = calls
  pc : c.state.pc = s.pc + 1
  carried : s.Carried L own c.state
  level : ∀ h, i.needs ≤ h →
    (c.state.regs .rsp).toNat + 8 * i.levelAfter h = (s.regs .rsp).toNat + 8 * h

section Keeps

variable {M : Image} {limits : Limits} {own : Nat → Prop} {s : State} {calls : List Frame}
  {c : Config} {i : Instr}

/-- What takes one word off advances, given what it leaves alone. -/
theorem Instr.Advances.of_pop (fits : M.layout.Fits limits M.code.length)
    (data : M.layout.dataStack ≤ (s.regs .rsp).toNat) {t : State} (on : t.OnStack M.layout)
    (rsp : t.regs .rsp = s.regs .rsp + 8) (level : ∀ h, i.needs ≤ h → i.levelAfter h + 1 = h)
    (carried : M.layout.dataStack ≤ (t.regs .rsp).toNat → s.Carried M.layout own t) :
    i.Advances M.layout own s calls ⟨t.goto (s.pc + 1), calls⟩ := by
  obtain ⟨high, moved⟩ := State.OnStack.pop fits rsp on data
  obtain ⟨kept, above, stack, pins⟩ := carried high
  refine ⟨rfl, rfl, ⟨kept, above, stack, pins⟩, fun h enough => ?_⟩
  have := level h enough
  simp only [State.goto] at moved ⊢
  omega

/-- A word that goes into a slot of its own leaves the other slots and the return stack alone. -/
theorem State.carried_popSlot (fits : M.layout.Fits limits M.code.length) {slot : Nat}
    (mine : own slot) (holds : M.layout.Holds slot)
    (high : M.layout.dataStack ≤ (s.pop.regs .rsp).toNat) :
    s.Carried M.layout own { s.pop with mem := s.mem.store (M.layout.slot slot) s.top } := by
  have bounds := fits.returnPointer_lt
  have here := fits.toNat_slot holds
  unfold Layout.Holds at holds
  refine ⟨rfl, high, fun x low _ => Memory.store_of_ge (by omega), fun other there differs => ?_⟩
  have apart : other ≠ slot := by
    rintro rfl
    exact differs mine
  have second := fits.toNat_slot there
  have low := fits.low
  unfold Layout.Holds at there
  exact Memory.load_store_apart (by omega) (by omega)

/-- What an instruction of a body does, by its kind. -/
theorem Instr.Keeps.step (keeps : i.Keeps own) (range : ∀ slot, own slot → M.layout.Holds slot)
    (fits : M.layout.Fits limits M.code.length) (sound : M.Sound ⟨s, calls⟩ c)
    (fetch : M.code[s.pc]? = some i) (r15 : s.regs .r15 = BitVec.ofNat 64 M.layout.pins)
    (data : M.layout.dataStack ≤ (s.regs .rsp).toNat) : i.Advances M.layout own s calls c := by
  have bounds := fits.returnPointer_lt
  have gap := fits.gap
  -- The level of what takes one word off.
  have less : ∀ {target : Operand} (h : Nat), (Instr.pop target).needs ≤ h →
      (Instr.pop target).levelAfter h + 1 = h := by
    intro target h enough
    simp only [needs, levelAfter] at enough ⊢
    omega
  cases keeps with
  | quiet quiet =>
    obtain ⟨same, pc, mem, rsp, r15'⟩ := sound.step.quiet fetch quiet
    refine ⟨same, pc, ?_, fun h _ => by rw [levelAfter_of_quiet quiet, rsp]⟩
    exact Memory.Spares.carried fits (mem ▸ .refl _ _) r15' (rsp ▸ data)
  | @push source =>
    obtain ⟨t, done, rfl⟩ := sound.step.of_plain fetch rfl
    obtain ⟨w, -, rfl⟩ := Option.map_eq_some_iff.1 done
    obtain ⟨high, moved⟩ := State.OnStack.push fits rfl sound.onStack data
    refine ⟨rfl, rfl, ?_, fun h _ => ?_⟩
    · refine Memory.Spares.carried fits (Memory.spares_store fits ?_) rfl high
      exact Nat.le_trans (by omega) high
    · simp only [levelAfter] at moved ⊢
      omega
  | @popReg r free =>
    obtain ⟨t, done, rfl⟩ := sound.step.of_plain fetch rfl
    cases done
    have differs : r ≠ .rsp ∧ r ≠ .r15 := by
      constructor <;> rintro rfl <;> cases free
    refine .of_pop fits data sound.onStack ?_ less fun high => ?_
    · simp [State.set, State.pop, differs.1.symm]
    · refine Memory.Spares.carried fits (.refl _ _) ?_ high
      simp [State.set, State.pop, differs.2.symm]
  | @popSlot slot mine =>
    obtain ⟨t, done, rfl⟩ := sound.step.of_plain fetch rfl
    have address : (Mem.offset .r15 (slot * wordBytes)).address M.layout s.pop
        = M.layout.slot slot := Layout.address_slot r15 slot
    rw [effect, slotOperand, Operand.write, address] at done
    cases done
    exact .of_pop fits data sound.onStack rfl less fun high =>
      State.carried_popSlot fits mine (range slot mine) high
  | @popChosen m chosen =>
    obtain ⟨t, done, rfl⟩ := sound.step.of_plain fetch rfl
    cases done
    exact .of_pop fits data sound.onStack rfl less fun high =>
      Memory.Spares.carried fits (sound.spares _ fetch chosen) rfl high
  | drop =>
    obtain ⟨t, done, rfl⟩ := sound.step.of_plain fetch rfl
    cases done
    refine .of_pop fits data sound.onStack rfl (fun h enough => ?_) fun high =>
      Memory.Spares.carried fits (.refl _ _) rfl high
    simp only [needs, levelAfter] at enough ⊢
    omega
  | @addTop n =>
    obtain ⟨t, done, rfl⟩ := sound.step.of_plain fetch rfl
    cases done
    refine ⟨rfl, rfl, ?_, fun h _ => rfl⟩
    refine Memory.Spares.carried fits (Memory.spares_store fits ?_) rfl data
    exact Nat.le_trans (by omega) data
  | @storeChosen source =>
    obtain ⟨t, done, rfl⟩ := sound.step.of_plain fetch rfl
    have spares := sound.spares _ fetch rfl
    have regs : t.regs = s.regs := by
      simp only [effect] at done
      split at done
      · obtain ⟨b, -, made⟩ := Option.bind_eq_some_iff.1 done
        cases made
        rfl
      · obtain ⟨w, -, made⟩ := Option.bind_eq_some_iff.1 done
        cases made
        rfl
    refine ⟨rfl, rfl, ?_, fun h _ => congrArg (fun r => (r .rsp).toNat + 8 * h) regs⟩
    exact Memory.Spares.carried fits spares (congrFun regs .r15)
      (Nat.le_trans data (Nat.le_of_eq (congrArg BitVec.toNat (congrFun regs .rsp).symm)))
  | syscall =>
    obtain ⟨t, answer, rfl⟩ := sound.step.of_syscall fetch
    have rsp := answer.regs .rsp (by decide) (by decide)
    refine ⟨rfl, rfl, ?_, fun h _ => congrArg (fun w => w.toNat + 8 * h) rsp⟩
    exact Memory.Spares.carried fits (sound.spares _ fetch rfl)
      (answer.regs .r15 (by decide) (by decide))
      (Nat.le_trans data (Nat.le_of_eq (congrArg BitVec.toNat rsp.symm)))

end Keeps

end PinnedStack.Asm
