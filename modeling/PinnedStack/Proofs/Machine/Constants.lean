import PinnedStack.Proofs.Machine.Operators
import PinnedStack.Proofs.Pins.Reserved

/-!
# Constants and the code that computes them

* `Binary.result_of_fold` — where an operator has a value on two numbers, its code pushes that value,
  unless it shifts a negative number to the right: `fold` keeps the sign and the code does not.
* `State.Grown` — some words more on the stack.
* `Constant.Term` — the parts of a postfix expression over literals. `Constant.fold` — its values;
  `Constant.grown_of_fold` — its code leaves them on the stack.
* `Constant.code_agrees` — an expression and the constant it defines leave the same word.
-/

namespace PinnedStack

open Asm

/-! ## Operators on numbers -/

/-- Is it anything but a shift of a negative number to the right? -/
def Binary.keepsSign : Binary → Int64 → Int64 → Bool
  | shr, a, b => 0 ≤ a || b = 0
  | _, _, _ => true

theorem toBitVec_of_word? {n : Int} {v : Int64} (h : word? n = some v) :
    v.toBitVec = BitVec.ofInt 64 n := by
  rw [← toInt_of_word? h, ofInt_toInt]

theorem ne_of_word? {n : Int} {v : Int64} (h : word? n = some v) : n ≠ 2 ^ 63 := by
  have high := Int64.toInt_lt v
  rw [toInt_of_word? h] at high
  omega

theorem toBitVec_flag (b : Bool) : (flag b).toBitVec = truth b := by
  cases b with
  | true => rfl
  | false => rfl

theorem toInt_eq_zero_iff {b : Int64} : b.toBitVec.toInt = 0 ↔ b = 0 := by
  rw [← Int64.toInt_inj]
  rfl

theorem toBitVec_beq (a b : Int64) : (a.toBitVec == b.toBitVec) = decide (a = b) := by
  rw [beq_eq_decide]
  exact decide_eq_decide.2 Int64.toBitVec_inj

theorem toInt_nonneg_iff {a : Int64} : 0 ≤ a.toBitVec.toInt ↔ 0 ≤ a := by
  rw [Int64.le_iff_toInt_le]
  rfl

/-- A distance below the width of a word is the count that the machine shifts by. -/
theorem shiftDistance?_eq_some {b d : Int64} (h : shiftDistance? b = some d) :
    d = b ∧ (b.toBitVec.smod 64).toNat = b.toBitVec.toNat % 64
      ∧ (b.toBitVec.toNat % 64 = 0 ↔ b = 0) := by
  unfold shiftDistance? at h
  split at h
  · rename_i range
    cases h
    have positive : b.toBitVec.msb = false := by
      rw [BitVec.msb_eq_toInt, decide_eq_false_iff_not, Int.not_lt]
      exact toInt_nonneg_iff.2 range.1
    refine ⟨rfl, ?_, ?_⟩
    · rw [BitVec.smod_eq, positive]
      rfl
    · have below : b.toBitVec.toInt < 64 := Int64.lt_iff_toInt_lt.1 range.2
      rw [← toInt_eq_zero_iff, BitVec.toInt_eq_toNat_of_msb positive] at *
      omega
  · cases h

/-- A word that is shifted to the right by zeros keeps its sign only where it has none. -/
theorem ushiftRight_eq_sshiftRight_iff {a : Word} {n : Nat} :
    a >>> n = a.sshiftRight n ↔ 0 ≤ a.toInt ∨ n = 0 := by
  have sign : a.msb = false ↔ 0 ≤ a.toInt := by
    rw [BitVec.msb_eq_toInt, decide_eq_false_iff_not, Int.not_lt]
  rw [← sign]
  constructor
  · intro same
    have msb := congrArg BitVec.msb same
    rw [BitVec.msb_sshiftRight, BitVec.msb_ushiftRight] at msb
    rcases Nat.eq_zero_or_pos n with zero | positive
    · exact .inr zero
    · left
      simpa [positive] using msb.symm
  · rintro (positive | rfl)
    · exact (BitVec.sshiftRight_eq_of_msb_false positive).symm
    · rw [BitVec.ushiftRight_zero, BitVec.sshiftRight_zero]

/-- **The code of an operator pushes the value that the operator has**, just where it does not shift a
negative number to the right. -/
theorem Binary.result_of_fold {op : Binary} {a b v : Int64} (folded : op.fold a b = some v) :
    ∃ w, op.result a.toBitVec b.toBitVec = some w
      ∧ (w = v.toBitVec ↔ op.keepsSign a b = true) := by
  cases op with
  | add =>
    refine ⟨_, rfl, iff_of_true ?_ rfl⟩
    rw [toBitVec_of_word? folded, BitVec.ofInt_add, ofInt_toInt, ofInt_toInt]
  | sub =>
    refine ⟨_, rfl, iff_of_true ?_ rfl⟩
    rw [toBitVec_of_word? folded, Int.sub_eq_add_neg, BitVec.ofInt_add, BitVec.ofInt_neg,
      ofInt_toInt, ofInt_toInt, BitVec.sub_eq_add_neg]
  | mul =>
    refine ⟨_, rfl, iff_of_true ?_ rfl⟩
    rw [toBitVec_of_word? folded, BitVec.ofInt_mul, ofInt_toInt, ofInt_toInt]
  | and | or | xor =>
    cases folded
    exact ⟨_, rfl, iff_of_true rfl rfl⟩
  | div =>
    simp only [Binary.fold] at folded
    split at folded
    · cases folded
    · rename_i zero
      have fits := not_or.2 ⟨mt toInt_eq_zero_iff.1 zero, ne_of_word? folded⟩
      exact ⟨_, if_neg fits, iff_of_true (toBitVec_of_word? folded).symm rfl⟩
  | mod =>
    simp only [Binary.fold] at folded
    split at folded
    · cases folded
    · rename_i zero
      obtain ⟨_, quotient, folded⟩ := Option.bind_eq_some_iff.1 folded
      have fits := not_or.2 ⟨mt toInt_eq_zero_iff.1 zero, ne_of_word? quotient⟩
      exact ⟨_, if_neg fits, iff_of_true (toBitVec_of_word? folded).symm rfl⟩
  | shl =>
    obtain ⟨d, distance, rfl⟩ := Option.map_eq_some_iff.1 folded
    obtain ⟨rfl, count, -⟩ := shiftDistance?_eq_some distance
    refine ⟨_, rfl, iff_of_true ?_ rfl⟩
    rw [Int64.toBitVec_shiftLeft, BitVec.shiftLeft_eq', count]
  | shr =>
    obtain ⟨d, distance, rfl⟩ := Option.map_eq_some_iff.1 folded
    obtain ⟨rfl, count, zero⟩ := shiftDistance?_eq_some distance
    refine ⟨_, rfl, ?_⟩
    rw [Int64.toBitVec_shiftRight, BitVec.sshiftRight', count, ushiftRight_eq_sshiftRight_iff,
      zero, toInt_nonneg_iff]
    simp [keepsSign]
  | eq =>
    cases folded
    refine ⟨_, rfl, iff_of_true ?_ rfl⟩
    rw [toBitVec_flag, toBitVec_beq]
  | ne =>
    cases folded
    refine ⟨_, rfl, iff_of_true ?_ rfl⟩
    rw [toBitVec_flag, bne, toBitVec_beq, decide_not]
  | lt | gt =>
    cases folded
    refine ⟨_, rfl, iff_of_true ?_ rfl⟩
    rw [toBitVec_flag, BitVec.slt_eq_decide]
    exact congrArg truth (decide_eq_decide.2 Int64.lt_iff_toInt_lt.symm)
  | le | ge =>
    cases folded
    refine ⟨_, rfl, iff_of_true ?_ rfl⟩
    rw [toBitVec_flag, BitVec.sle_eq_decide]
    exact congrArg truth (decide_eq_decide.2 Int64.le_iff_toInt_le.symm)

/-! ## Words on the stack -/

namespace Asm

/-- The stack of `t` is that of `s` with some words more, the last one pushed first. -/
structure State.Grown (s t : State) (ws : List Word) : Prop where
  rsp : (t.regs .rsp).toNat + 8 * ws.length = (s.regs .rsp).toNat
  words : t.mem.Lie (t.regs .rsp).toNat ws
  above : ∀ x : Word, (s.regs .rsp).toNat ≤ x.toNat → t.mem x = s.mem x
  r15 : t.regs .r15 = s.regs .r15

namespace State.Grown

variable {s t u : State} {a b w : Word} {ws : List Word}

theorem refl (s : State) : s.Grown s [] := ⟨by simp, trivial, fun _ _ => rfl, rfl⟩

theorem push (h : s.Grown t ws) (room : 8 * (ws.length + 1) ≤ (s.regs .rsp).toNat)
    (pushed : (t.push w).Quiet u) : s.Grown u (w :: ws) := by
  have size := h.rsp
  have top : (u.regs .rsp).toNat = (t.regs .rsp).toNat - 8 := by
    rw [pushed.rsp]
    exact toNat_sub_ofNat (a := t.regs .rsp) (n := 8) (by omega)
  have stored : u.mem = t.mem.store (u.regs .rsp) w := by
    rw [pushed.mem, pushed.rsp]
    rfl
  have apart : ∀ x : Word, (t.regs .rsp).toNat ≤ x.toNat → u.mem x = t.mem x := by
    intro x le
    rw [stored]
    exact Memory.store_of_ge (by omega)
  refine ⟨?_, ⟨?_, ?_⟩, ?_, pushed.r15.trans h.r15⟩
  · rw [List.length_cons]
    omega
  · rw [BitVec.ofNat_toNat, BitVec.setWidth_eq, stored, Memory.load_store_same]
  · have next : (u.regs .rsp).toNat + 8 = (t.regs .rsp).toNat := by omega
    rw [next]
    have high := (s.regs .rsp).isLt
    exact h.words.congr (by omega) fun x low _ => apart x low
  · intro x le
    rw [apart x (by omega), h.above x le]

theorem pop (h : s.Grown t (w :: ws)) : s.Grown t.pop ws ∧ t.top = w := by
  have size := h.rsp
  rw [List.length_cons] at size
  have high := (s.regs .rsp).isLt
  have next : (t.pop.regs .rsp).toNat = (t.regs .rsp).toNat + 8 :=
    toNat_add_ofNat (a := t.regs .rsp) (n := 8) (by omega)
  obtain ⟨first, rest⟩ := h.words
  refine ⟨⟨by omega, ?_, h.above, h.r15⟩, ?_⟩
  · rw [next]
    exact rest
  · rw [BitVec.ofNat_toNat, BitVec.setWidth_eq] at first
    exact first

theorem replace (h : s.Grown t (b :: a :: ws)) (replaced : (t.pop.pop.push w).Quiet u) :
    s.Grown u (w :: ws) := by
  have size := h.rsp
  simp only [List.length_cons] at size
  exact h.pop.1.pop.1.push (by omega) replaced

end State.Grown

end Asm

/-! ## Expressions over literals -/

namespace Constant

/-- A part of a postfix expression over literals. -/
inductive Term where
  | literal (value : Int64)
  | operator (op : Binary)
deriving DecidableEq

namespace Term

/-- Is a part spelled by a token? -/
def Spelled : Term → Token → Prop
  | literal value, t => t.kind = .int value
  | operator op, t => t.kind = .word ∧ t.lexeme = op.symbol

/-- The operation that a part stands for in a body. -/
def op : Term → Op
  | literal value => .number value
  | operator op => .binary op

/-- The values behind a part, the last one first. -/
def next (stack : List Int64) : Term → Option (List Int64)
  | literal value => some (value :: stack)
  | operator op =>
      match stack with
      | b :: a :: rest => (op.fold a b).map (· :: rest)
      | _ => none

/-- Is a part anything but a shift of a negative number to the right? -/
def keepsSign (stack : List Int64) : Term → Bool
  | literal _ => true
  | operator op =>
      match stack with
      | b :: a :: _ => op.keepsSign a b
      | _ => true

end Term

/-- The values of an expression, given those in front of it. -/
def fold (stack : List Int64) : List Term → Option (List Int64)
  | [] => some stack
  | t :: ts => (t.next stack).bind (fold · ts)

/-- Does no part of an expression shift a negative number to the right? -/
def keepsSign (stack : List Int64) : List Term → Bool
  | [] => true
  | t :: ts => t.keepsSign stack && (t.next stack).all (keepsSign · ts)

/-- The instructions of an expression in a body. -/
def code (terms : List Term) : List Instr := terms.flatMap (·.op.code)

variable {g : Globals} {stack out : List Int64} {terms : List Term} {tokens : List Token}

theorem next_of_step {term : Term} {t : Token} {next : List Int64} (spelled : term.Spelled t)
    (ok : step g stack t = .ok next) : term.next stack = some next := by
  cases term with
  | literal value =>
    have kind : t.kind = .int value := spelled
    simp only [step, kind] at ok
    cases ok
    rfl
  | operator op =>
    simp only [step, spelled.1, spelled.2, Binary.ofSymbol?_symbol] at ok
    obtain ⟨b, a, rest, value, rfl, folded, rfl⟩ := apply_eq_ok.1 ok
    show (op.fold a b).map _ = _
    rw [folded]
    rfl

theorem fold_of_run (spelled : List.Forall₂ Term.Spelled terms tokens)
    (ok : run g stack tokens = .ok out) : fold stack terms = some out := by
  induction spelled generalizing stack with
  | nil =>
    cases ok
    rfl
  | cons first _ ih =>
    simp only [run] at ok
    split at ok
    · rename_i next one
      unfold fold
      rw [next_of_step first one]
      exact ih ok
    · cases ok

theorem step_term {term : Term} {t : Token} (spelled : term.Spelled t) {r : Reader}
    (free : r.Unreserved) (phase : r.phase = .statement) :
    Reader.step g r t = .ok (r.after r.supply [.op term.op t.place]) := by
  unfold Reader.step
  rw [phase]
  show Reader.statement g r t = _
  unfold Reader.statement
  cases term with
  | literal value =>
    rw [show t.kind = .int value from spelled]
    rfl
  | operator op =>
    rw [spelled.1, spelled.2]
    simp only [free.resolve_symbol g op t.place]
    rfl

/-- In a body the same tokens are the operations that the parts stand for. -/
theorem read_terms (spelled : List.Forall₂ Term.Spelled terms tokens) {r : Reader}
    (free : r.Unreserved) (phase : r.phase = .statement) :
    ∃ nodes, Reader.run g r tokens = .ok (r.after r.supply nodes)
      ∧ instrsOf (linesOf nodes) = code terms := by
  induction spelled generalizing r with
  | nil => exact ⟨[], congrArg Except.ok (Reader.after_nil r).symm, rfl⟩
  | @cons term t terms tokens first _ ih =>
    have one := step_term (g := g) first free phase
    obtain ⟨nodes, rest, emitted⟩ := ih (Reader.unreserved_moves free (Reader.step_moves one))
      (by rw [Reader.after_phase, phase])
    rw [Reader.after_supply, Reader.after_after] at rest
    refine ⟨.op term.op t.place :: nodes, ?_, ?_⟩
    · simp only [Reader.run, one]
      exact rest
    · show instrsOf (instrs term.op.code ++ linesOf nodes) = term.op.code ++ code terms
      rw [instrsOf_append, instrsOf_instrs, emitted]

/-! ## What the code of an expression leaves -/

section Run

variable {M : Image} {s t : State} (calls : List Asm.Frame)

theorem length_next {term : Term} {next : List Int64} (one : term.next stack = some next) :
    next.length ≤ stack.length + 1 := by
  cases term with
  | literal value =>
    cases one
    exact Nat.le_refl _
  | operator op =>
    simp only [Term.next] at one
    split at one
    · obtain ⟨value, -, rfl⟩ := Option.map_eq_some_iff.1 one
      simp only [List.length_cons]
      omega
    · cases one

/-- The code of one part does to the stack what the part does to the values. -/
theorem grown_of_next {term : Term} {next : List Int64} (one : term.next stack = some next)
    (signed : term.keepsSign stack = true) (holds : M.Holds t.pc term.op.code)
    (room : 8 * (stack.length + 1) ≤ (s.regs .rsp).toNat)
    (grown : s.Grown t (stack.map Int64.toBitVec)) :
    ∃ u, M.Straight ⟨t, calls⟩ ⟨u, calls⟩ ∧ u.pc = t.pc + term.op.code.length
      ∧ s.Grown u (next.map Int64.toBitVec) := by
  cases term with
  | literal value =>
    cases one
    obtain ⟨u, done, pc, pushed⟩ := outcomes_pushNumber (L := M.layout) (s := t) value
    refine ⟨u, holds.straight done, pc, grown.push ?_ pushed⟩
    rwa [List.length_map]
  | operator op =>
    simp only [Term.next] at one
    split at one
    · rename_i b a rest
      obtain ⟨value, folded, rfl⟩ := Option.map_eq_some_iff.1 one
      obtain ⟨w, computed, agrees⟩ := Binary.result_of_fold folded
      obtain rfl := agrees.2 signed
      obtain ⟨below, top⟩ := grown.pop
      obtain ⟨u, done, pc, replaced⟩ := Binary.outcomes_code (L := M.layout) top below.pop.2 computed
      exact ⟨u, holds.straight done, pc, grown.replace replaced⟩
    · cases one

/-- **The code of an expression leaves the values of the expression on the stack.** -/
theorem grown_of_fold (folded : fold stack terms = some out) (signed : keepsSign stack terms = true)
    (holds : M.Holds t.pc (code terms))
    (room : 8 * (stack.length + terms.length) ≤ (s.regs .rsp).toNat)
    (grown : s.Grown t (stack.map Int64.toBitVec)) :
    ∃ u, M.Straight ⟨t, calls⟩ ⟨u, calls⟩ ∧ u.pc = t.pc + (code terms).length
      ∧ s.Grown u (out.map Int64.toBitVec) := by
  induction terms generalizing stack t with
  | nil =>
    cases folded
    exact ⟨t, .refl, rfl, grown⟩
  | cons term terms ih =>
    obtain ⟨next, one, rest⟩ := Option.bind_eq_some_iff.1 folded
    obtain ⟨here, later⟩ := Bool.and_eq_true_iff.1 signed
    rw [one] at later
    rw [List.length_cons] at room
    have longer := length_next one
    have both : M.Holds t.pc (term.op.code ++ code terms) := holds
    obtain ⟨u, first, pc, middle⟩ :=
      grown_of_next calls one here both.left (by omega) grown
    obtain ⟨v, others, last, done⟩ :=
      ih rest later (pc ▸ both.right) (by omega) middle
    refine ⟨v, first.trans others, ?_, done⟩
    rw [last, pc]
    show _ = t.pc + (term.op.code ++ code terms).length
    rw [List.length_append]
    omega

/-- **Constants agree with the code that would compute them**, but for negative numbers that are
shifted to the right. Where an operator has a value, its code pushes that value just if it does not
shift a negative number to the right. Where an expression over literals defines a constant and shifts
none, the same tokens read as statements, anywhere in a text, and a use of the constant both lead
straight to the same word on the stack. -/
theorem code_agrees {M : Image} :
    (∀ (op : Binary) (a b v : Int64) (s : State) (calls : List Asm.Frame),
      op.fold a b = some v → M.Holds s.pc op.code →
      s.top = b.toBitVec → s.pop.top = a.toBitVec →
        ∃ w t, M.Straight ⟨s, calls⟩ ⟨t, calls⟩ ∧ t.pc = s.pc + op.code.length
          ∧ (s.pop.pop.push w).Quiet t ∧ (w = v.toBitVec ↔ op.keepsSign a b = true))
    ∧ ∀ (limits : Limits) (text : Scanned) (survey : Survey) (before tokens : List Token)
        (r : Reader) (terms : List Term) (name : Token) (v : Int64),
      Survey.ofTokens limits text = .ok survey →
      Reader.run survey.globals (.start survey) before = .ok r → r.phase = .statement →
      List.Forall₂ Term.Spelled terms tokens → eval survey.globals name tokens = .ok v →
      keepsSign [] terms = true →
        ∃ nodes, Reader.run survey.globals r tokens = .ok (r.after r.supply nodes)
          ∧ ∀ (s : State) (calls : List Asm.Frame), 8 * tokens.length ≤ (s.regs .rsp).toNat →
            (M.Holds s.pc (instrsOf (linesOf nodes)) →
              ∃ t, M.Straight ⟨s, calls⟩ ⟨t, calls⟩ ∧ t.pc = s.pc + extentOf nodes
                ∧ s.Grown t [v.toBitVec])
            ∧ (M.Holds s.pc (Op.number v).code →
              ∃ t, M.Straight ⟨s, calls⟩ ⟨t, calls⟩ ∧ t.pc = s.pc + (Op.number v).code.length
                ∧ s.Grown t [v.toBitVec]) := by
  constructor
  · intro op a b v s calls folded holds right left
    obtain ⟨w, computed, agrees⟩ := Binary.result_of_fold folded
    obtain ⟨t, done, pc, replaced⟩ := Binary.outcomes_code (L := M.layout) right left computed
    exact ⟨w, t, holds.straight done, pc, replaced, agrees⟩
  · intro limits text survey before tokens r terms name v surveyed read phase spelled ok signed
    have folded := fold_of_run spelled (eval_eq_ok.1 ok)
    have same := spelled.length_eq
    have some : terms ≠ [] := by
      rintro rfl
      cases folded
    have positive := List.length_pos_iff.2 some
    obtain ⟨nodes, added, emitted⟩ :=
      read_terms (g := survey.globals) spelled (Reader.unreserved_run surveyed read) phase
    refine ⟨nodes, added, fun s calls room => ⟨fun holds => ?_, fun holds => ?_⟩⟩
    · rw [extentOf, emitted] at *
      exact grown_of_fold calls folded signed holds (by simpa [same] using room) (.refl s)
    · obtain ⟨t, done, pc, pushed⟩ := outcomes_pushNumber (L := M.layout) (s := s) v
      exact ⟨t, holds.straight done, pc, (State.Grown.refl s).push (by simp; omega) pushed⟩

end Run

/-! ## Two words on the stack -/

/-- Two words on the stack, `b` on top, in front of the first instruction. -/
def stacked (a b : Word) : State where
  regs r := if r = .rsp then 200000 else 0
  flags := none
  mem := (Memory.store (fun _ => 0) 200008 a).store 200000 b
  pc := 0

theorem top_stacked (a b : Word) : (stacked a b).top = b := Memory.load_store_same ..

theorem top_pop_stacked (a b : Word) : (stacked a b).pop.top = a := by
  show ((Memory.store (fun _ => 0) 200008 a).store 200000 b).load 200008 = a
  rw [Memory.load_store_apart (by decide) (.inl (by decide))]
  exact Memory.load_store_same ..

/-- Instructions in memory, without anything around them. -/
def alone (is : List Instr) : Image := ⟨instrs is, .usual⟩

theorem holds_alone (is : List Instr) : (alone is).Holds 0 is :=
  ⟨[], [], by simp [alone, Image.code], rfl⟩

/-- The tokens of `6 -7 * 5 %`. -/
def remainder : List Token :=
  [⟨.int 6, "6", ⟨1, 1, "t"⟩⟩, ⟨.int (-7), "-7", ⟨1, 3, "t"⟩⟩, ⟨.word, "*", ⟨1, 6, "t"⟩⟩,
    ⟨.int 5, "5", ⟨1, 8, "t"⟩⟩, ⟨.word, "%", ⟨1, 10, "t"⟩⟩]

/-- The parts of `6 -7 * 5 %`. -/
def remainderTerms : List Term :=
  [.literal 6, .literal (-7), .operator .mul, .literal 5, .operator .mod]

/-- The code of `/` leaves -3 for -7 and 2, and that of `6 -7 * 5 %` leaves -2, the constant. -/
theorem code_agrees_remainder :
    (∃ t, (alone (Binary.code .div)).Straight ⟨stacked (-7) 2, []⟩ ⟨t, []⟩ ∧ t.top = -3)
      ∧ eval .initial ⟨.word, "X", .builtin⟩ remainder = .ok (-2)
      ∧ ∃ t, (alone (code remainderTerms)).Straight ⟨stacked 0 0, []⟩ ⟨t, []⟩ ∧ t.top = -2 := by
  have surveyed : Survey.ofTokens {} ⟨remainder, ⟨1, 11, "t"⟩⟩ = .ok (.start {}) := rfl
  have value : eval .initial ⟨.word, "X", .builtin⟩ remainder = .ok (-2) := rfl
  have spelled : List.Forall₂ Term.Spelled remainderTerms remainder :=
    .cons rfl (.cons rfl (.cons ⟨rfl, rfl⟩ (.cons rfl (.cons ⟨rfl, rfl⟩ .nil))))
  refine ⟨?_, value, ?_⟩
  · obtain ⟨w, t, steps, -, quiet, agrees⟩ := code_agrees.1 .div (-7) 2 (-3) (stacked (-7) 2) []
      rfl (holds_alone _) (top_stacked ..) (top_pop_stacked ..)
    obtain rfl : w = -3 := agrees.2 rfl
    refine ⟨t, steps, ?_⟩
    rw [State.top, quiet.mem, quiet.rsp]
    exact Memory.load_store_same ..
  · obtain ⟨nodes, read, runs⟩ := (code_agrees (M := alone (code remainderTerms))).2 {}
      ⟨remainder, ⟨1, 11, "t"⟩⟩ (.start {}) [] remainder (.start (.start {})) remainderTerms
      ⟨.word, "X", .builtin⟩ (-2) surveyed rfl rfl spelled value rfl
    cases read
    obtain ⟨t, steps, -, grown⟩ := (runs (stacked 0 0) [] (by decide)).1 (holds_alone _)
    exact ⟨t, steps, grown.pop.2⟩

/-- **A negative number that is shifted to the right is no longer negative in code**: as a constant
`-1 1 >>` is -1, but the code of the operator leaves the greatest number. -/
theorem shr_loses_sign :
    Binary.fold .shr (-1) 1 = some (-1)
      ∧ ∃ t, (alone (Binary.code .shr)).Straight ⟨stacked (-1) 1, []⟩ ⟨t, []⟩
        ∧ t.pc = (Binary.code .shr).length ∧ t.top = (9223372036854775807 : Int64).toBitVec
        ∧ t.top ≠ (-1 : Int64).toBitVec := by
  have computed : Binary.result .shr (-1) 1 = some (9223372036854775807 : Int64).toBitVec := by
    decide
  obtain ⟨t, done, pc, replaced⟩ := Binary.outcomes_code (L := .usual) (top_stacked (-1) 1)
    (top_pop_stacked (-1) 1) computed
  have top : t.top = (9223372036854775807 : Int64).toBitVec := by
    rw [State.top, replaced.mem, replaced.rsp]
    exact Memory.load_store_same ..
  refine ⟨rfl, t, (holds_alone _).straight done, ?_, top, ?_⟩
  · rw [pc]
    rfl
  · rw [top]
    decide

end Constant

end PinnedStack
