import PinnedStack.Proofs.Machine.Meanings

/-!
# What the code of the primitive operations does

* `Instr.Encodable` — an immediate operand that can be encoded. `Op.encodable` — all of them can.
* `Op.leaving_words`, `Access.outcomes_store`, `Op.meets_hands` — code that computes words, stores
  them or hands them over.
* `Op.Meets` — all that the code of an operation does with the words on the data stack.
* `Op.code_implements` — it does what the typing rule of the operation describes.
-/

namespace PinnedStack

open Asm

/-! ## Immediate operands -/

/-- The immediate operand of an instruction. -/
def Asm.Instr.immediate? : Instr → Option Int
  | .push (.imm n) => some n
  | .mov _ (.imm n) => some n
  | .arith _ _ (.imm n) => some n
  | _ => none

/-- Can the immediate operand of an instruction be encoded? It has 32 bits with a sign, or 64 where
it is moved to a register. -/
def Asm.Instr.Encodable (i : Instr) : Prop :=
  ∀ n, i.immediate? = some n →
    (-2 ^ 31 ≤ n ∧ n < 2 ^ 31) ∨ ∃ r, i = .movImm r n ∧ -2 ^ 63 ≤ n ∧ n < 2 ^ 63

section Encoding

variable {is : List Instr} {op : Op}

theorem encodable_pushNumber (v : Int64) : ∀ i ∈ pushNumber v, i.Encodable := by
  intro i mem n here
  unfold pushNumber at mem
  split at mem
  · rename_i fits
    obtain ⟨low, high⟩ := Bool.and_eq_true_iff.1 fits
    have least : -2 ^ 31 ≤ v.toInt := of_decide_eq_true low
    have most : v.toInt ≤ 2 ^ 31 - 1 := of_decide_eq_true high
    cases List.mem_singleton.1 mem
    cases here
    exact .inl ⟨least, by omega⟩
  · rcases List.mem_cons.1 mem with rfl | mem
    · cases here
      exact .inr ⟨.rax, rfl, Int64.le_toInt v, Int64.toInt_lt v⟩
    · cases List.mem_singleton.1 mem
      cases here

/-- Instructions without immediate operands are encoded as they stand. -/
theorem encodable_of_none (none : ∀ i ∈ is, i.immediate? = none) : ∀ i ∈ is, i.Encodable := by
  intro i mem n here
  rw [none i mem] at here
  cases here

theorem encodable_pushAddress (label : String) : ∀ i ∈ pushAddress label, i.Encodable :=
  encodable_of_none (List.forall_mem_cons.2 ⟨rfl, List.forall_mem_singleton.2 rfl⟩)

/-- Every operand is encoded as it stands: numbers on both sides of 32 bits are. -/
theorem Op.encodable (near : ∀ r f, op = .field r f → f.offset < 2 ^ 31) :
    ∀ i ∈ op.code, i.Encodable := by
  cases op with
  | number v => exact encodable_pushNumber v
  | bool v =>
    intro i mem n here
    cases List.mem_singleton.1 mem
    cases here
    cases v <;> exact .inl ⟨by decide, by decide⟩
  | string label length =>
    exact List.forall_mem_append.2 ⟨encodable_pushNumber _, encodable_pushAddress label⟩
  | cstring label => exact encodable_pushAddress label
  | memory label ty => exact encodable_pushAddress label
  | field r f =>
    have small := near r f rfl
    intro i mem n here
    simp only [Op.code] at mem
    split at mem
    · cases mem
    · cases List.mem_singleton.1 mem
      cases here
      exact .inl ⟨by omega, by omega⟩
  | drop =>
    intro i mem n here
    cases List.mem_singleton.1 mem
    cases here
    exact .inl ⟨by decide, by decide⟩
  | binary op => exact encodable_of_none (by cases op <;> decide)
  | load access =>
    refine encodable_of_none (List.forall_mem_cons.2 ⟨rfl, ?_⟩)
    cases access with
    | record r => exact List.forall_mem_map.2 fun _ _ => rfl
    | _ => decide
  | store access =>
    refine encodable_of_none (List.forall_mem_cons.2 ⟨rfl, ?_⟩)
    cases access with
    | record r => exact List.forall_mem_map.2 fun _ _ => rfl
    | _ => decide
  | syscall arguments =>
    have pops : ∀ i ∈ (syscallRegisters.take arguments).map Instr.popReg, i.immediate? = none :=
      List.forall_mem_map.2 fun _ _ => rfl
    have ends : ∀ i ∈ [Instr.syscall, .pushReg .rax], i.immediate? = none := by decide
    exact encodable_of_none (List.forall_mem_cons.2 ⟨rfl, List.forall_mem_append.2 ⟨pops, ends⟩⟩)
  | pin p => exact encodable_of_none (List.forall_mem_map.2 fun _ _ => rfl)
  | update p => exact encodable_of_none (List.forall_mem_map.2 fun _ _ => rfl)
  | pinned p => exact encodable_of_none (List.forall_mem_map.2 fun _ _ => rfl)
  | cast | unpin =>
    intro i mem
    cases mem
  | _ => exact encodable_of_none (by decide)

end Encoding

/-! ## Words that are computed -/

section Code

variable {L : Layout} {base s : State} {ws out : List Word}

/-- A word that is tested for zero. -/
theorem setWidth_test (a : Word) :
    ((BitVec.ofNat 64 (a.toNat / 256 * 256
      + (if Cond.e.holds (.ofConjunction a a) then (1 : Byte) else 0).toNat)).setWidth 8).setWidth
      64 = truth (a == 0) := by
  have zero : Cond.e.holds (.ofConjunction a a) = (a == 0) := congrArg (· == 0) (BitVec.and_self ..)
  rw [setWidth_lowByte, zero]
  cases a == 0 with
  | true => rfl
  | false => rfl

theorem Op.leaving_words {op : Op} (grown : base.Grown s ws)
    (made : op.words? L s.mem ws = some out) (room : 8 * out.length ≤ (base.regs .rsp).toNat)
    (off : op.OffStack base ws) : Leaving L base s op.code out := by
  cases op with
  | number v =>
    cases made
    obtain ⟨t, done, -, pushed⟩ := outcomes_pushNumber (L := L) (s := s) v
    exact ⟨t, done, (State.Leaves.of_mem grown rfl).push room pushed⟩
  | bool v =>
    cases made
    refine ⟨_, rfl, (State.Leaves.of_mem grown rfl).push room (?_ : (s.push (truth v)).Quiet _)⟩
    cases v <;> exact ⟨rfl, rfl, rfl⟩
  | string label length =>
    cases made
    obtain ⟨t, first, -, number⟩ := outcomes_pushNumber (L := L) (s := s) (Int64.ofNat length)
    obtain ⟨u, second, -, address⟩ := outcomes_pushAddress (L := L) (s := t) label
    rw [List.length_cons, List.length_cons] at room
    have pushed := (State.Leaves.of_mem grown rfl).push (by omega) number
    refine ⟨u, ?_, pushed.push room address⟩
    show outcomes L (pushNumber _ ++ pushAddress label) s = _
    rw [outcomes_append, first]
    exact second
  | cstring label =>
    cases made
    obtain ⟨t, done, -, pushed⟩ := outcomes_pushAddress (L := L) (s := s) label
    exact ⟨t, done, (State.Leaves.of_mem grown rfl).push room pushed⟩
  | memory label ty =>
    cases made
    obtain ⟨t, done, -, pushed⟩ := outcomes_pushAddress (L := L) (s := s) label
    exact ⟨t, done, (State.Leaves.of_mem grown rfl).push room pushed⟩
  | dup =>
    obtain _ | ⟨_, rest⟩ := ws <;> cases made
    obtain ⟨-, rfl⟩ := grown.pop
    exact .replaced [] [_] grown room rfl ⟨rfl, rfl, rfl⟩
  | drop =>
    obtain _ | ⟨_, rest⟩ := ws <;> cases made
    exact .replaced [_] [] grown room rfl ⟨rfl, rfl, rfl⟩
  | swap =>
    obtain _ | ⟨y, _ | ⟨x, rest⟩⟩ := ws <;> cases made
    refine leaving_moved [.rax, .rbx] [.rax, .rbx] (by decide) (by decide) (by decide) grown
      (Nat.le_add_left ..) room fun f words => ?_
    obtain ⟨rfl, rfl⟩ : f .rax = y ∧ f .rbx = x := by simpa using words
    rfl
  | copySecond =>
    obtain _ | ⟨_, _ | ⟨_, rest⟩⟩ := ws <;> cases made
    obtain ⟨below, rfl⟩ := grown.pop
    obtain ⟨-, rfl⟩ := below.pop
    exact .replaced [] [_] grown room rfl ⟨rfl, rfl, rfl⟩
  | rot =>
    obtain _ | ⟨z, _ | ⟨y, _ | ⟨x, rest⟩⟩⟩ := ws <;> cases made
    refine leaving_moved [.rcx, .rbx, .rax] [.rbx, .rcx, .rax] (by decide) (by decide)
      (by decide) grown (Nat.le_add_left ..) room fun f words => ?_
    obtain ⟨rfl, rfl, rfl⟩ : f .rcx = z ∧ f .rbx = y ∧ f .rax = x := by simpa using words
    rfl
  | not =>
    obtain _ | ⟨_, rest⟩ := ws <;> cases made
    obtain ⟨-, rfl⟩ := grown.pop
    refine .replaced [_] [_] grown room rfl ⟨?_, rfl, rfl⟩
    rw [← setWidth_test s.top]
    rfl
  | cast kind =>
    obtain _ | ⟨_, rest⟩ := ws <;> cases made
    exact ⟨s, rfl, .of_mem grown rfl⟩
  | field r f =>
    obtain _ | ⟨a, rest⟩ := ws <;> cases made
    by_cases none : f.offset = 0
    · refine ⟨s, ?_, ?_⟩
      · rw [code, if_pos none]
        rfl
      · rw [none, BitVec.add_zero]
        exact .of_mem grown rfl
    · obtain ⟨-, rfl⟩ := grown.pop
      rw [code, if_neg none]
      have back : s.regs .rsp + 8 - 8 = s.regs .rsp := BitVec.add_sub_cancel ..
      refine .replaced [_] [_] grown room rfl ⟨?_, back.symm, rfl⟩
      show _ = s.mem.store (s.regs .rsp + 8 - 8) _
      rw [back]
      rfl
  | load access =>
    cases access with
    | word =>
      obtain _ | ⟨_, rest⟩ := ws <;> cases made
      obtain ⟨-, rfl⟩ := grown.pop
      exact .replaced [_] [_] grown room rfl ⟨rfl, rfl, rfl⟩
    | byte =>
      obtain _ | ⟨_, rest⟩ := ws <;> cases made
      obtain ⟨-, rfl⟩ := grown.pop
      exact .replaced [_] [_] grown room rfl ⟨rfl, rfl, rfl⟩
    | record r =>
      obtain _ | ⟨a, rest⟩ := ws <;> cases made
      obtain ⟨below, rfl⟩ := grown.pop
      let u : State := (s.pop.set .rax s.top).goto (s.pc + 1)
      have size : (fieldWords s.mem s.top r.layout ++ rest).length
          = r.layout.length + rest.length := by
        rw [List.length_append, fieldWords, List.length_reverse, List.length_map]
      rw [size] at room
      have same : s.pop.Quiet u := ⟨rfl, rfl, rfl⟩
      have here : base.Leaves s u rest := .of_mem (below.congr same) rfl
      exact leaving_fields rfl grown.above here room off
  | _ => cases made

/-! ## Words that are stored -/

/-- The code of a store takes an address off the top and writes the words below it there. -/
theorem Access.outcomes_store {access : Access} {a : Word} {rest : List Word}
    (grown : base.Grown s (a :: rest)) (enough : access.width ≤ rest.length)
    (off : (Op.store access).OffStack base (a :: rest)) :
    ∃ t, outcomes L (Op.store access).code s = some t ∧ t.mem = access.stored s.mem a rest
      ∧ t.regs .rsp = s.regs .rsp + BitVec.ofNat 64 (8 * (access.width + 1))
      ∧ t.regs .r15 = s.regs .r15 := by
  obtain ⟨below, rfl⟩ := grown.pop
  cases access with
  | word =>
    match rest, enough with
    | w :: rest, _ =>
      obtain ⟨-, rfl⟩ := below.pop
      exact ⟨_, rfl, rfl, BitVec.add_assoc .., rfl⟩
  | byte =>
    match rest, enough with
    | w :: rest, _ =>
      obtain ⟨-, rfl⟩ := below.pop
      exact ⟨_, rfl, rfl, BitVec.add_assoc .., rfl⟩
  | record r =>
    let u : State := (s.pop.set .rax s.top).goto (s.pc + 1)
    have size := grown.rsp
    rw [List.length_cons] at size
    have next : (u.regs .rsp).toNat = (s.regs .rsp).toNat + 8 :=
      toNat_add_ofNat (a := s.regs .rsp) (n := 8) (by have := (base.regs .rsp).isLt; omega)
    have count : r.layout.reverse.length = r.fields.length := by
      rw [List.length_reverse, r.length_layout]
    obtain ⟨v, done, mem, rsp, r15⟩ := outcomes_storeFields (L := L) (t := u) (a := s.top) rfl
      (enough.trans_eq' count.symm) below.words (by rw [next]; omega) (base.regs .rsp).isLt
      fun f mem i few => by
        rcases off f (List.mem_reverse.1 mem) i few with low | high
        · exact .inl (by omega)
        · exact .inr high
    refine ⟨v, done, mem, ?_, r15⟩
    rw [rsp, count]
    exact add_eight_add (s.regs .rsp) r.fields.length

end Code

/-! ## What the code does -/

namespace Asm

/-- Code leads straight to an instruction, with some words in registers and the others still on the
stack. -/
structure Image.Hands (M : Image) (base s t : State) (calls : List Frame) (i : Instr)
    (regs : List Reg) (ws : List Word) : Prop where
  straight : M.Straight ⟨s, calls⟩ ⟨t, calls⟩
  pc : t.pc = s.pc + regs.length
  fetch : M.code[t.pc]? = some i
  words : regs.map t.regs = ws.take regs.length
  grown : base.Grown t (ws.drop regs.length)
  mem : t.mem = s.mem

end Asm

/-- What the code of an operation does with words on the data stack, the one on top first. An
operator takes the right operand from the top and the left one from below it. A store changes no
other bytes than those it is for. Words for the processor are handed over in registers, and an
answer is pushed. Everything else leaves the words that it computes and changes nothing below
them. -/
structure Op.Meets (M : Image) (base s : State) (calls : List Asm.Frame) (ws : List Word)
    (op : Op) : Prop where
  operator : ∀ b, op = .binary b → ∃ y x rest, ws = y :: x :: rest
    ∧ ∀ n, b.number? x.toInt y.toInt = some n → ∃ w, M.Leads base s calls op.code.length (w :: rest)
      ∧ (w = BitVec.ofInt 64 n ↔ b.signed x y = true)
  store : ∀ access, op = .store access → ∃ a rest t, ws = a :: rest
    ∧ M.Straight ⟨s, calls⟩ ⟨t, calls⟩ ∧ t.pc = s.pc + op.code.length
    ∧ t.mem = access.stored s.mem a rest
    ∧ t.regs .rsp = s.regs .rsp + BitVec.ofNat 64 (8 * op.takes) ∧ t.regs .r15 = s.regs .r15
  hands : ∀ i, op.callee? = some i → ∃ t, M.Hands base s t calls i op.registers ws
    ∧ ∀ u, u.pc = t.pc + 1 → base.Grown u (ws.drop op.takes) → if op.answers
        then M.Leads base u calls 1 (u.regs .rax :: ws.drop op.takes)
          ∧ t.pc + 2 = s.pc + op.code.length
        else t.pc + 1 = s.pc + op.code.length
  words : (∀ b, op ≠ .binary b) → (∀ access, op ≠ .store access) → op.callee? = none →
    ∃ out, op.words? M.layout s.mem ws = some out ∧ M.Leads base s calls op.code.length out

section Operations

variable {M : Image} {base s : State} {calls : List Asm.Frame} {ws : List Word} {op : Op}
  {scope : List Pin} {place : Place} {k after : Knowledge}

theorem Op.length_registers (fits : op.Fits scope) {i : Instr} (callee : op.callee? = some i) :
    op.registers.length = op.takes := by
  cases op with
  | syscall arguments => exact congrArg (· + 1) (List.length_take_of_le fits)
  | print | streq => rfl
  | _ => cases callee

theorem Op.registers_sublist {i : Instr} (callee : op.callee? = some i) :
    op.registers.Nodup ∧ ∀ r ∈ op.registers, r ≠ .rsp ∧ r ≠ .r15 := by
  have whole : (.rax :: syscallRegisters).Nodup
      ∧ ∀ r ∈ (.rax :: syscallRegisters), r ≠ .rsp ∧ r ≠ .r15 := by decide
  cases op with
  | syscall arguments =>
    have part := (List.take_sublist arguments syscallRegisters).cons_cons Reg.rax
    exact ⟨whole.1.sublist part, fun r mem => whole.2 r (part.subset mem)⟩
  | print => exact ⟨by decide, by decide⟩
  | streq => exact ⟨by decide, by decide⟩
  | _ => cases callee

theorem Op.code_of_callee {i : Instr} (callee : op.callee? = some i) :
    op.code = op.registers.map .popReg ++ (i :: if op.answers then [.pushReg .rax] else []) := by
  cases op with
  | syscall | print | streq =>
    cases callee
    rfl
  | _ => cases callee

/-- The code of an operator pushes the word of its result. -/
theorem Binary.meets {b : Binary} {x y : Word} {rest : List Word} {n : Int}
    (grown : base.Grown s (y :: x :: rest)) (holds : M.Holds s.pc b.code)
    (exact : b.number? x.toInt y.toInt = some n) :
    ∃ w, M.Leads base s calls b.code.length (w :: rest)
      ∧ (w = BitVec.ofInt 64 n ↔ b.signed x y = true) := by
  obtain ⟨w, computed, agrees⟩ := Binary.result_of_number exact
  obtain ⟨below, top⟩ := grown.pop
  obtain ⟨t, done, -, replaced⟩ := Binary.outcomes_code (L := M.layout) top below.pop.2 computed
  have size := grown.rsp
  simp only [List.length_cons] at size
  have room : 8 * (([w] : List Word) ++ rest).length ≤ (base.regs .rsp).toNat := by
    simp only [List.length_append, List.length_cons, List.length_nil]
    omega
  exact ⟨w, (Leaving.replaced [y, x] [w] grown room done replaced).leads holds, agrees⟩

theorem Op.gives_of_answers (answers : op.answers = true) : op.gives = 1 := by
  cases op with
  | streq | syscall => rfl
  | _ => cases answers

/-- Words are handed over in registers, the one on top first, and the answer is pushed. -/
theorem Op.meets_hands {i : Instr} (fits : op.Fits scope) (callee : op.callee? = some i)
    (enough : op.takes ≤ ws.length)
    (room : 8 * (ws.length - op.takes + op.gives) ≤ (base.regs .rsp).toNat)
    (grown : base.Grown s ws) (holds : M.Holds s.pc op.code) :
    ∃ t, M.Hands base s t calls i op.registers ws
      ∧ ∀ u, u.pc = t.pc + 1 → base.Grown u (ws.drop op.takes) → if op.answers
          then M.Leads base u calls 1 (u.regs .rax :: ws.drop op.takes)
            ∧ t.pc + 2 = s.pc + op.code.length
          else t.pc + 1 = s.pc + op.code.length := by
  have count := Op.length_registers fits callee
  obtain ⟨distinct, free⟩ := Op.registers_sublist callee
  rw [← count] at enough
  rw [Op.code_of_callee callee] at holds ⊢
  obtain ⟨t, done, words, rest, mem, -⟩ :=
    outcomes_popRegs (L := M.layout) distinct free grown enough
  have pc : t.pc = s.pc + op.registers.length := by
    rw [outcomes_pc done, List.length_map]
  have later := holds.right
  rw [List.length_map, ← pc] at later
  refine ⟨t, ⟨holds.left.straight done, pc, later.fetch, words, rest, mem⟩, fun u next below => ?_⟩
  rw [pc, List.length_append, List.length_map, List.length_cons]
  cases answers : op.answers with
  | false => rfl
  | true =>
    rw [answers, if_pos rfl, ← List.singleton_append] at later
    have pushes : M.Holds u.pc [.pushReg .rax] := next ▸ later.right
    have enough' : 8 * ([u.regs .rax] ++ ws.drop op.takes).length ≤ (base.regs .rsp).toNat := by
      rw [Op.gives_of_answers answers] at room
      rw [List.length_append, List.length_drop, List.length_singleton, Nat.add_comm]
      exact room
    have leaving : Leaving M.layout base u [.pushReg .rax] ([u.regs .rax] ++ ws.drop op.takes) :=
      .replaced [] [u.regs .rax] (count ▸ below) enough' rfl ⟨rfl, rfl, rfl⟩
    exact ⟨leaving.leads pushes, rfl⟩

/-- The words that an operation finds, all that it does with them. -/
theorem Op.meets (fits : op.Fits scope) (own : op.isPinning = false) (enough : op.takes ≤ ws.length)
    (room : 8 * (ws.length - op.takes + op.gives) ≤ (base.regs .rsp).toNat)
    (grown : base.Grown s ws) (holds : M.Holds s.pc op.code) (off : op.OffStack base ws) :
    op.Meets M base s calls ws where
  operator := by
    rintro b rfl
    match ws, enough with
    | y :: x :: rest, _ => exact ⟨y, x, rest, rfl, fun n exact => Binary.meets grown holds exact⟩
  store := by
    rintro access rfl
    match ws, enough with
    | a :: rest, enough =>
      obtain ⟨t, done, mem, rsp, r15⟩ :=
        Access.outcomes_store (L := M.layout) grown (Nat.le_of_succ_le_succ enough) off
      exact ⟨a, rest, t, rfl, holds.straight done, outcomes_pc done, mem, rsp, r15⟩
  hands := fun i callee => Op.meets_hands fits callee enough room grown holds
  words := by
    intro operator store plain
    obtain ⟨out, made, size⟩ := Op.exists_words (L := M.layout) (m := s.mem) own plain enough
      operator store
    refine ⟨out, made, (Op.leaving_words grown made ?_ off).leads holds⟩
    have count : out.length = ws.length - op.takes + op.gives := by omega
    rwa [count]

/-- **The code of a primitive operation does what its typing rule describes**, but for negative
words that are shifted to the right. On every data stack of words whose types the rule accepts,
* the words of a shuffle move as their types do,
* an operator replaces the two words on top by the word of its result, just if it does not shift a
  negative word to the right,
* print, comparison of strings and system calls hand their words over, the one on top first, and the
  answer is pushed,
* a store changes the bytes it is for, and
* everything else leaves the words that it computes. -/
theorem Op.code_implements (fits : op.Fits scope) (own : op.isPinning = false)
    (verified : op.verify place k = .ok after) :
    ((∀ r f, op = .field r f → f.offset < 2 ^ 31) → ∀ i ∈ op.code, i.Encodable)
    ∧ ∀ (base s : State) (calls : List Asm.Frame) (ws : List Word), ws.length = k.shape.size →
        base.Grown s ws → 8 * after.shape.size ≤ (base.regs .rsp).toNat → op.OffStack base ws →
        M.Holds s.pc op.code →
          op.Meets M base s calls ws
          ∧ (op.isShuffle = true → ∃ out : List (Word × Cell),
              op.shuffle? (ws.zip k.shape.cells) = some out ∧ after.shape.cells = out.map Prod.snd
                ∧ M.Leads base s calls op.code.length (out.map Prod.fst)) := by
  obtain ⟨last, turns, rfl⟩ := (Op.verify_eq_ok own).1 verified
  obtain ⟨takes, balance⟩ := turns.counts fits
  refine ⟨Op.encodable, fun base s calls ws length grown room off holds => ?_⟩
  have size : ws.length - op.takes + op.gives = last.size := by omega
  have meets : op.Meets M base s calls ws :=
    Op.meets fits own (by omega) (by rwa [size]) grown holds off
  refine ⟨meets, fun shuffles => ?_⟩
  have words : (ws.zip k.shape.cells).map Prod.fst = ws := List.map_fst_zip (Nat.le_of_eq length)
  have types : (ws.zip k.shape.cells).map Prod.snd = k.shape.cells :=
    List.map_snd_zip (Nat.le_of_eq length.symm)
  have rearranged := Op.Turns.shuffle shuffles turns
  rw [← types, Op.shuffle?_map] at rearranged
  obtain ⟨out, made, cells⟩ := Option.map_eq_some_iff.1 rearranged
  have moved : op.shuffle? ws = some (out.map Prod.fst) := by
    have both := op.shuffle?_map Prod.fst (ws.zip k.shape.cells)
    rwa [words, made] at both
  obtain ⟨same, operator, store, plain⟩ :=
    Op.plain_of_shuffle (L := M.layout) (m := s.mem) (w := ws) shuffles
  obtain ⟨left, computed, leads⟩ := meets.words operator store plain
  obtain rfl : out.map Prod.fst = left :=
    Option.some.inj (moved.symm.trans (same.symm.trans computed))
  exact ⟨out, made, cells.symm, leads⟩

end Operations

/-! ## Two words on the stack -/

namespace Constant

/-- The stack below the words of `stacked`. -/
def unstacked : State := (stacked 0 0).set .rsp 200016

theorem grown_stacked (a b : Word) : unstacked.Grown (stacked a b) [b, a] := by
  have above : ∀ (a b : Word) (x : Word), 200016 ≤ x.toNat → (stacked a b).mem x = 0 := by
    intro a b x le
    have first : (200000 : Word).toNat + 8 ≤ x.toNat := Nat.le_trans (by decide) le
    have second : (200008 : Word).toNat + 8 ≤ x.toNat := le
    exact (Memory.store_of_ge first).trans (Memory.store_of_ge second)
  refine ⟨rfl, ⟨top_stacked a b, top_pop_stacked a b, trivial⟩, fun x le => ?_, rfl⟩
  exact (above a b x le).trans (above 0 0 x le).symm

/-- The code of `swap` moves the two words as its typing rule moves their types. -/
theorem code_implements_swap :
    ∃ after, Op.swap.verify ⟨1, 1, "t"⟩
        ⟨⟨[⟨.pointer, ⟨1, 3, "t"⟩⟩, ⟨.number, ⟨1, 1, "t"⟩⟩]⟩, .empty⟩ = .ok after
      ∧ after.shape.cells = [⟨.number, ⟨1, 1, "t"⟩⟩, ⟨.pointer, ⟨1, 3, "t"⟩⟩]
      ∧ (alone Op.swap.code).Leads unstacked (stacked 7 4096) [] 4 [7, 4096] := by
  have fits : Op.swap.Fits [] := trivial
  have verified : Op.swap.verify ⟨1, 1, "t"⟩
      ⟨⟨[⟨.pointer, ⟨1, 3, "t"⟩⟩, ⟨.number, ⟨1, 1, "t"⟩⟩]⟩, .empty⟩
      = .ok ⟨⟨[⟨.number, ⟨1, 1, "t"⟩⟩, ⟨.pointer, ⟨1, 3, "t"⟩⟩]⟩, .empty⟩ := rfl
  obtain ⟨-, runs⟩ := Op.code_implements (M := alone Op.swap.code) fits rfl verified
  obtain ⟨-, shuffled⟩ := runs unstacked (stacked 7 4096) [] [4096, 7] rfl (grown_stacked 7 4096)
    (by decide) trivial (holds_alone _)
  obtain ⟨out, made, -, leads⟩ := shuffled rfl
  cases made
  exact ⟨_, verified, rfl, leads⟩

/-- **A negative word that is shifted to the right is no longer negative**: -8 shifted by one is -4,
but the code of the operator leaves a positive word. -/
theorem shr_clears_sign :
    Binary.number? .shr (-8) 1 = some (-4)
      ∧ ∃ t, (alone (Op.binary .shr).code).Straight ⟨stacked (-8) 1, []⟩ ⟨t, []⟩
        ∧ t.pc = (Op.binary .shr).code.length ∧ t.top.toInt = 2 ^ 63 - 4
        ∧ t.top ≠ BitVec.ofInt 64 (-4) := by
  have computed : Binary.result .shr (-8) 1 = some 0x7ffffffffffffffc := by decide
  obtain ⟨t, done, pc, replaced⟩ := Binary.outcomes_code (L := .usual) (top_stacked (-8) 1)
    (top_pop_stacked (-8) 1) computed
  have top : t.top = 0x7ffffffffffffffc := by
    rw [State.top, replaced.mem, replaced.rsp]
    exact Memory.load_store_same ..
  refine ⟨rfl, t, (holds_alone _).straight done, ?_, ?_, ?_⟩
  · rw [pc]
    rfl
  · rw [top]
    rfl
  · rw [top]
    decide

end Constant

end PinnedStack
