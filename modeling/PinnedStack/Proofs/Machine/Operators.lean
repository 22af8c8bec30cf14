import PinnedStack.Proofs.Machine.Forced
import PinnedStack.Proofs.Machine.Transparency

/-!
# What the code of an operator computes

* `Instr.outcome`, `outcomes` — effects, with the flags read where they are known. `Image.Holds` — code
  at a position. `Image.Holds.straight` — where outcomes are known there is no other way to go.
* `holds_ofDifference_l` and its like — the conditions after a comparison, as orders with sign.
* `Binary.result` — the word that an operator makes of two words, if it does not fault.
* `Binary.outcomes_code` — the code of an operator replaces the two words on top by its result.
* `outcomes_pushNumber`, `outcomes_pushAddress` — what the code of literals pushes.
-/

namespace PinnedStack

namespace Asm

/-! ## Known outcomes -/

/-- What an instruction does that goes on to the next one. A condition has to be known. -/
def Instr.outcome (L : Layout) (s : State) : Instr → Option State
  | .set c r => s.flags.bind fun f => (Operand.low r).writeByte L s (if c.holds f then 1 else 0)
  | i => i.effect L s

/-- The outcomes of instructions in order. -/
def outcomes (L : Layout) : List Instr → State → Option State
  | [], s => some s
  | i :: is, s => (i.outcome L s).bind fun t => outcomes L is (t.goto (s.pc + 1))

/-- Some instructions stand behind `q` others. -/
def Image.Holds (M : Image) (q : Nat) (is : List Instr) : Prop :=
  ∃ before after, M.code = before ++ is ++ after ∧ before.length = q

theorem outcomes_append (L : Layout) (is js : List Instr) (s : State) :
    outcomes L (is ++ js) s = (outcomes L is s).bind (outcomes L js) := by
  induction is generalizing s with
  | nil => rfl
  | cons i is ih =>
    show (i.outcome L s).bind _ = ((i.outcome L s).bind _).bind _
    rw [Option.bind_assoc]
    exact Option.bind_congr fun t _ => ih _

theorem outcomes_pc {L : Layout} {is : List Instr} {s t : State}
    (done : outcomes L is s = some t) : t.pc = s.pc + is.length := by
  induction is generalizing s with
  | nil =>
    cases done
    rfl
  | cons i is ih =>
    obtain ⟨u, -, rest⟩ := Option.bind_eq_some_iff.1 done
    rw [ih rest, State.goto_pc, List.length_cons]
    omega

theorem Instr.quiet_outcome {L : Layout} {s t : State} {i : Instr} (quiet : i.quiet = true)
    (done : i.outcome L s = some t) : s.Quiet t := by
  unfold outcome at done
  split at done
  · obtain ⟨f, -, done⟩ := Option.bind_eq_some_iff.1 done
    exact Operand.quiet_writeByte rfl done
  · exact Instr.quiet_effect quiet done

theorem State.Quiet.trans {s t u : State} (h : s.Quiet t) (h' : t.Quiet u) : s.Quiet u :=
  ⟨h'.mem.trans h.mem, h'.rsp.trans h.rsp, h'.r15.trans h.r15⟩

theorem quiet_outcomes {L : Layout} {is : List Instr} {s t : State}
    (done : outcomes L is s = some t) (quiet : ∀ i ∈ is, i.quiet = true) : s.Quiet t := by
  induction is generalizing s with
  | nil =>
    cases done
    exact .refl _
  | cons i is ih =>
    obtain ⟨u, one, rest⟩ := Option.bind_eq_some_iff.1 done
    have first := Instr.quiet_outcome (quiet i (List.mem_cons_self ..)) one
    have others := ih rest fun i mem => quiet i (List.mem_cons_of_mem _ mem)
    exact first.trans ⟨others.mem, others.rsp, others.r15⟩

namespace Image

variable {M : Image} {q : Nat} {is js : List Instr} {i : Instr} {s t : State} {calls : List Frame}
  {c d e : Config}

theorem Holds.left (h : M.Holds q (is ++ js)) : M.Holds q is := by
  obtain ⟨before, after, eq, len⟩ := h
  exact ⟨before, js ++ after, by rw [eq]; simp, len⟩

theorem Holds.right (h : M.Holds q (is ++ js)) : M.Holds (q + is.length) js := by
  obtain ⟨before, after, eq, len⟩ := h
  exact ⟨before ++ is, after, by rw [eq]; simp, by simp [len]⟩

theorem Holds.fetch (h : M.Holds q (i :: is)) : M.code[q]? = some i := by
  obtain ⟨before, after, eq, rfl⟩ := h
  rw [eq]
  simp

theorem Straight.trans (h : M.Straight c d) (h' : M.Straight d e) : M.Straight c e := by
  induction h with
  | refl => exact h'
  | head only _ ih => exact .head only (ih h')

/-- An instruction with a known outcome goes on to the next one and nowhere else. -/
theorem step_outcome_iff (fetch : M.code[s.pc]? = some i)
    (done : i.outcome M.layout s = some t) :
    M.Step ⟨s, calls⟩ c ↔ c = ⟨t.goto (s.pc + 1), calls⟩ := by
  unfold Instr.outcome at done
  split at done
  · rename_i cond r
    obtain ⟨f, known, done⟩ := Option.bind_eq_some_iff.1 done
    constructor
    · intro step
      cases step with
      | set other allows result =>
        rw [fetch] at other
        cases other
        rw [← allows f known, done] at result
        cases result
        rfl
      | effect other result =>
        rw [fetch] at other
        cases other
        cases result
      | taken other | passed other | jmp other | call other | ret other | syscall other =>
        rw [fetch] at other
        cases other
    · rintro rfl
      refine .set (b := cond.holds f) fetch (fun g here => ?_) done
      rw [known] at here
      cases here
      rfl
  · exact step_iff fetch done

/-- Where outcomes are known there is no other way to go. -/
theorem Holds.straight (h : M.Holds s.pc is) (done : outcomes M.layout is s = some t) :
    M.Straight ⟨s, calls⟩ ⟨t, calls⟩ := by
  induction is generalizing s with
  | nil =>
    cases done
    exact .refl
  | cons i is ih =>
    obtain ⟨u, one, rest⟩ := Option.bind_eq_some_iff.1 done
    rw [← List.singleton_append] at h
    have tail : M.Holds (s.pc + 1) is := h.right
    exact .head (fun _ => step_outcome_iff h.fetch one) (ih tail rest)

end Image

/-! ## Conditions after a comparison -/

section Conditions

variable (a b : Word)

theorem holds_ofDifference_e : Cond.e.holds (.ofDifference a b) = (a == b) := rfl

theorem holds_ofDifference_ne : Cond.ne.holds (.ofDifference a b) = (a != b) := rfl

theorem holds_ofDifference_l : Cond.l.holds (.ofDifference a b) = a.slt b := by
  have alow := BitVec.le_two_mul_toInt (x := a)
  have ahigh := BitVec.two_mul_toInt_lt (x := a)
  have blow := BitVec.le_two_mul_toInt (x := b)
  have bhigh := BitVec.two_mul_toInt_lt (x := b)
  show ((a - b).msb != (a.msb != b.msb && (a - b).msb != a.msb)) = a.slt b
  simp only [BitVec.msb_eq_toInt, BitVec.slt_eq_decide, BitVec.toInt_sub, Int.bmod_def]
  -- Without equal signs the overflow flag undoes a difference that wrapped around.
  by_cases left : a.toInt < 0 <;> by_cases right : b.toInt < 0 <;> simp [left, right] <;> omega

theorem holds_ofDifference_ge : Cond.ge.holds (.ofDifference a b) = b.sle a := by
  have negated : Cond.ge.holds (.ofDifference a b) = !Cond.l.holds (.ofDifference a b) := by
    simp only [Cond.holds, bne, Bool.not_not]
  rw [negated, holds_ofDifference_l, BitVec.slt_eq_decide, BitVec.sle_eq_decide, ← decide_not]
  exact decide_eq_decide.2 Int.not_lt

theorem holds_ofDifference_le : Cond.le.holds (.ofDifference a b) = a.sle b := by
  have either : Cond.le.holds (.ofDifference a b)
      = (Cond.e.holds (.ofDifference a b) || Cond.l.holds (.ofDifference a b)) := rfl
  rw [either, holds_ofDifference_e, holds_ofDifference_l, BitVec.slt_eq_decide,
    BitVec.sle_eq_decide, Bool.beq_eq_decide_eq, ← Bool.decide_or]
  refine decide_eq_decide.2 ?_
  rw [← BitVec.toInt_inj]
  omega

theorem holds_ofDifference_g : Cond.g.holds (.ofDifference a b) = b.slt a := by
  have neither : Cond.g.holds (.ofDifference a b) = !Cond.le.holds (.ofDifference a b) := by
    simp only [Cond.holds, bne, Bool.not_or, Bool.not_not]
  rw [neither, holds_ofDifference_le, BitVec.slt_eq_decide, BitVec.sle_eq_decide, ← decide_not]
  exact decide_eq_decide.2 Int.not_le

end Conditions

end Asm

open Asm

/-! ## Operators -/

/-- One for true and zero for false, as a word. -/
def truth (b : Bool) : Word := if b then 1 else 0

/-- The word that an operator makes of two words. Division faults on zero and where the quotient does
not fit a word. Shifts go by the lowest six bits, and fill with zeros both ways. -/
def Binary.result : Binary → Word → Word → Option Word
  | add, a, b => some (a + b)
  | sub, a, b => some (a - b)
  | mul, a, b => some (a * b)
  | div, a, b =>
      if b.toInt = 0 ∨ a.toInt.tdiv b.toInt = 2 ^ 63 then none
      else some (BitVec.ofInt 64 (a.toInt.tdiv b.toInt))
  | mod, a, b =>
      if b.toInt = 0 ∨ a.toInt.tdiv b.toInt = 2 ^ 63 then none
      else some (BitVec.ofInt 64 (a.toInt.tmod b.toInt))
  | and, a, b => some (a &&& b)
  | or, a, b => some (a ||| b)
  | xor, a, b => some (a ^^^ b)
  | shl, a, b => some (a <<< (b.toNat % 64))
  | shr, a, b => some (a >>> (b.toNat % 64))
  | eq, a, b => some (truth (a == b))
  | ne, a, b => some (truth (a != b))
  | lt, a, b => some (truth (a.slt b))
  | gt, a, b => some (truth (b.slt a))
  | le, a, b => some (truth (a.sle b))
  | ge, a, b => some (truth (b.sle a))

section Code

variable {L : Layout} {s : State} {a b w : Word}

theorem toNat_lowByte (x : Word) : ((x.setWidth 8).setWidth 64 : Word).toNat = x.toNat % 256 := by
  rw [BitVec.toNat_setWidth, BitVec.toNat_setWidth]
  omega

/-- A byte that was written to the low end of a register fills it, extended with zeros. -/
theorem setWidth_lowByte (x : Word) (b : Byte) :
    ((BitVec.ofNat 64 (x.toNat / 256 * 256 + b.toNat)).setWidth 8).setWidth 64 = b.setWidth 64 := by
  have xlt := x.isLt
  have blt := b.isLt
  apply BitVec.eq_of_toNat_eq
  rw [toNat_lowByte, BitVec.toNat_ofNat, BitVec.toNat_setWidth]
  omega

/-- A comparison sets `rax` to whether its condition holds. -/
theorem outcomes_compareCode {cond : Cond} {answer : Bool} (left : s.regs .rax = a)
    (right : s.regs .rbx = b) (compared : cond.holds (.ofDifference a b) = answer) :
    ∃ t, outcomes L (compareCode cond) s = some t ∧ t.regs .rax = truth answer := by
  subst left right compared
  refine ⟨_, rfl, ?_⟩
  show ((BitVec.ofNat 64 _ : Word).setWidth 8).setWidth 64 = _
  rw [setWidth_lowByte]
  cases cond.holds (.ofDifference (s.regs .rax) (s.regs .rbx)) with
  | true => rfl
  | false => rfl

/-- A shift depends on the lowest byte of its count only. -/
theorem Arith.result_lowByte (op : Arith) (shift : op.isShift = true) (x y : Word) :
    op.result x ((y.setWidth 8).setWidth 64) = op.result x y := by
  cases op with
  | shl | shr =>
    simp only [Arith.result]
    rw [toNat_lowByte, Nat.mod_mod_of_dvd _ (by decide)]
  | _ => cases shift

/-- With its sign extended to two words, a word is divided as the number it stands for. -/
theorem State.idiv_signed (signed : s.regs .rdx = if (s.regs .rax).msb then -1 else 0) (d : Word) :
    s.idiv d =
      if d.toInt = 0 ∨ (s.regs .rax).toInt.tdiv d.toInt = 2 ^ 63 then none
      else some ((s.set .rax (BitVec.ofInt 64 ((s.regs .rax).toInt.tdiv d.toInt))).set .rdx
        (BitVec.ofInt 64 ((s.regs .rax).toInt.tmod d.toInt))) := by
  have whole : (s.regs .rdx).toInt * 2 ^ 64 + (s.regs .rax).toNat = (s.regs .rax).toInt := by
    rw [signed, BitVec.toInt_eq_msb_cond (s.regs .rax)]
    cases (s.regs .rax).msb with
    | true =>
      show (-1 : Int) * 2 ^ 64 + _ = (s.regs .rax).toNat - 2 ^ 64
      omega
    | false =>
      show (0 : Int) * 2 ^ 64 + _ = (s.regs .rax).toNat
      omega
  have low := BitVec.le_two_mul_toInt (x := s.regs .rax)
  have high := BitVec.two_mul_toInt_lt (x := s.regs .rax)
  have bound := Int.natAbs_tdiv_le_natAbs (s.regs .rax).toInt d.toInt
  unfold State.idiv
  simp only [whole]
  refine if_congr (or_congr_right ?_) rfl rfl
  omega

/-- A word is divided with its sign: the quotient goes to `rax` and the remainder to `rdx`. -/
theorem outcomes_divide (left : s.regs .rax = a) (right : s.regs .rbx = b)
    (fits : ¬ (b.toInt = 0 ∨ a.toInt.tdiv b.toInt = 2 ^ 63)) :
    ∃ t, outcomes L [.cqo, .unary .idiv (.reg .rbx)] s = some t
      ∧ t.regs .rax = BitVec.ofInt 64 (a.toInt.tdiv b.toInt)
      ∧ t.regs .rdx = BitVec.ofInt 64 (a.toInt.tmod b.toInt) := by
  subst left right
  let u : State := (s.set .rdx (if (s.regs .rax).msb then -1 else 0)).goto (s.pc + 1)
  have divided : u.idiv (s.regs .rbx) = some ((u.set .rax _).set .rdx _) :=
    (State.idiv_signed (s := u) rfl (s.regs .rbx)).trans (if_neg fits)
  refine ⟨((u.set .rax _).set .rdx _).forget.goto (u.pc + 1), ?_, rfl, rfl⟩
  show (((u.idiv (s.regs .rbx)).map State.forget).bind fun t => some (t.goto (u.pc + 1))) = _
  rw [divided]
  rfl

/-- The operator itself, without the code around it, leaves its result in `rax`. -/
theorem Binary.outcomes_combine {op : Binary} (left : s.regs .rax = a) (right : s.regs .rbx = b)
    (computed : op.result a b = some w) :
    ∃ t, outcomes L op.combine s = some t ∧ t.regs .rax = w := by
  cases op with
  | add | sub | mul | and | or | xor =>
    subst left right
    cases computed
    exact ⟨_, rfl, rfl⟩
  | shl =>
    subst left right
    cases computed
    exact ⟨_, rfl, Arith.result_lowByte .shl rfl (s.regs .rax) (s.regs .rbx)⟩
  | shr =>
    subst left right
    cases computed
    exact ⟨_, rfl, Arith.result_lowByte .shr rfl (s.regs .rax) (s.regs .rbx)⟩
  | div =>
    simp only [Binary.result] at computed
    split at computed
    · cases computed
    · rename_i fits
      cases computed
      obtain ⟨t, done, quotient, -⟩ := outcomes_divide (L := L) left right fits
      exact ⟨t, done, quotient⟩
  | mod =>
    simp only [Binary.result] at computed
    split at computed
    · cases computed
    · rename_i fits
      cases computed
      obtain ⟨t, done, -, remainder⟩ := outcomes_divide (L := L) left right fits
      refine ⟨(t.set .rax (t.regs .rdx)).goto (t.pc + 1), ?_, remainder⟩
      show outcomes L (([.cqo, .unary .idiv (.reg .rbx)] : List Instr) ++ [.movReg .rax .rdx]) s = _
      rw [outcomes_append, done]
      rfl
  | eq =>
    cases computed
    exact outcomes_compareCode left right (holds_ofDifference_e a b)
  | ne =>
    cases computed
    exact outcomes_compareCode left right (holds_ofDifference_ne a b)
  | lt =>
    cases computed
    exact outcomes_compareCode left right (holds_ofDifference_l a b)
  | gt =>
    cases computed
    exact outcomes_compareCode left right (holds_ofDifference_g a b)
  | le =>
    cases computed
    exact outcomes_compareCode left right (holds_ofDifference_le a b)
  | ge =>
    cases computed
    exact outcomes_compareCode left right (holds_ofDifference_ge a b)

theorem Binary.quiet_combine (op : Binary) : ∀ i ∈ op.combine, i.quiet = true := by
  cases op <;> decide

/-- The code of an operator takes the right operand off the top and the left one from below it, and
pushes the result. -/
theorem Binary.outcomes_code {op : Binary} (right : s.top = b) (left : s.pop.top = a)
    (computed : op.result a b = some w) :
    ∃ t, outcomes L op.code s = some t ∧ t.pc = s.pc + op.code.length
      ∧ (s.pop.pop.push w).Quiet t := by
  let u : State := ((((s.pop.set .rbx s.top).goto (s.pc + 1)).pop.set .rax s.pop.top).goto
    (s.pc + 1 + 1))
  have popped : outcomes L [.popReg .rbx, .popReg .rax] s = some u := rfl
  obtain ⟨v, combined, value⟩ := op.outcomes_combine (L := L) (s := u) left right computed
  have quiet : u.Quiet v := quiet_outcomes combined op.quiet_combine
  have whole : outcomes L op.code s = some ((v.push (v.regs .rax)).goto (v.pc + 1)) := by
    unfold Binary.code
    rw [outcomes_append, outcomes_append, popped, Option.bind_some, combined]
    rfl
  refine ⟨_, whole, outcomes_pc whole, ?_, ?_, ?_⟩
  · show v.mem.store (v.regs .rsp - 8) (v.regs .rax) = _
    rw [quiet.mem, quiet.rsp, value]
    rfl
  · show v.regs .rsp - 8 = _
    rw [quiet.rsp]
    rfl
  · exact quiet.r15

/-! ## Literals -/

theorem ofInt_toInt (v : Int64) : BitVec.ofInt 64 v.toInt = v.toBitVec := BitVec.ofInt_toInt

/-- A number is pushed as its word, whether it fits an immediate operand or not. -/
theorem outcomes_pushNumber (v : Int64) :
    ∃ t, outcomes L (pushNumber v) s = some t ∧ t.pc = s.pc + (pushNumber v).length
      ∧ (s.push v.toBitVec).Quiet t := by
  unfold pushNumber
  split
  · refine ⟨(s.push (BitVec.ofInt 64 v.toInt)).goto (s.pc + 1), rfl, rfl, ?_⟩
    rw [ofInt_toInt]
    exact ⟨rfl, rfl, rfl⟩
  · let loaded : State := (s.set .rax (BitVec.ofInt 64 v.toInt)).goto (s.pc + 1)
    refine ⟨(loaded.push (BitVec.ofInt 64 v.toInt)).goto (loaded.pc + 1), rfl, rfl, ?_⟩
    rw [ofInt_toInt]
    exact ⟨rfl, rfl, rfl⟩

theorem outcomes_pushAddress (label : String) :
    ∃ t, outcomes L (pushAddress label) s = some t ∧ t.pc = s.pc + (pushAddress label).length
      ∧ (s.push (L.symbol label)).Quiet t := by
  let loaded : State := (s.set .rax (L.symbol label)).goto (s.pc + 1)
  exact ⟨(loaded.push (L.symbol label)).goto (loaded.pc + 1), rfl, rfl, rfl, rfl, rfl⟩

end Code

end PinnedStack
