import PinnedStack.Proofs.Emission.Levels
import PinnedStack.Proofs.Machine.Leaving

/-!
# What the primitive operations mean

* `Binary.number?` — the number that an operator makes of two numbers. `Binary.result_of_number` — its
  code computes the word of that number, but for a sign that is shifted to the right.
* `Op.shuffle?` — how an operation rearranges a stack of anything. `Op.words?` — the words that an
  operation computes. `Access.stored` — memory after a store.
* `Op.registers`, `Op.callee?` — what is handed over, and what to.
* `Op.Turns.counts` — an operation takes and gives as many words as its typing rule.
-/

namespace PinnedStack

open Asm

/-! ## Operators on all words -/

/-- The number that an operator makes of two numbers. Division has none by zero and where the
quotient is none of 64 bits. Shifts go by the lowest six bits of the count. -/
def Binary.number? : Binary → Int → Int → Option Int
  | add, a, b => some (a + b)
  | sub, a, b => some (a - b)
  | mul, a, b => some (a * b)
  | div, a, b => if b = 0 ∨ a.tdiv b = 2 ^ 63 then none else some (a.tdiv b)
  | mod, a, b => if b = 0 ∨ a.tdiv b = 2 ^ 63 then none else some (a.tmod b)
  | and, a, b => some (BitVec.ofInt 64 a &&& BitVec.ofInt 64 b).toInt
  | or, a, b => some (BitVec.ofInt 64 a ||| BitVec.ofInt 64 b).toInt
  | xor, a, b => some (BitVec.ofInt 64 a ^^^ BitVec.ofInt 64 b).toInt
  | shl, a, b => some (a * 2 ^ (b % 64).toNat)
  | shr, a, b => some (a / 2 ^ (b % 64).toNat)
  | eq, a, b => some (if a = b then 1 else 0)
  | ne, a, b => some (if a = b then 0 else 1)
  | lt, a, b => some (if a < b then 1 else 0)
  | gt, a, b => some (if b < a then 1 else 0)
  | le, a, b => some (if a ≤ b then 1 else 0)
  | ge, a, b => some (if b ≤ a then 1 else 0)

/-- Is it anything but a shift of a negative word to the right? -/
def Binary.signed : Binary → Word → Word → Bool
  | shr, a, b => 0 ≤ a.toInt || b.toNat % 64 = 0
  | _, _, _ => true

theorem truth_decide (p : Prop) [Decidable p] :
    truth (decide p) = BitVec.ofInt 64 (if p then 1 else 0) := by
  by_cases h : p
  · rw [decide_eq_true h, if_pos h]; rfl
  · rw [decide_eq_false h, if_neg h]; rfl

theorem emod_toInt (b : Word) : (b.toInt % 64).toNat = b.toNat % 64 := by
  have := BitVec.toInt_eq_toNat_cond b
  split at this <;> omega

theorem ofInt_mul_two_pow (a : Word) (n : Nat) : BitVec.ofInt 64 (a.toInt * 2 ^ n) = a <<< n := by
  have power : BitVec.ofInt 64 (2 ^ n) = BitVec.twoPow 64 n := by
    have nat : (2 : Int) ^ n = ((2 ^ n : Nat) : Int) := (Int.natCast_pow 2 n).symm
    rw [nat, BitVec.ofInt_natCast]
    apply BitVec.eq_of_toNat_eq
    rw [BitVec.toNat_ofNat, BitVec.toNat_twoPow]
  rw [BitVec.ofInt_mul, BitVec.ofInt_toInt, power, BitVec.shiftLeft_eq_mul_twoPow]

theorem ofInt_div_two_pow (a : Word) (n : Nat) :
    BitVec.ofInt 64 (a.toInt / 2 ^ n) = a.sshiftRight n := by
  have shifted : a.toInt / 2 ^ n = (a.sshiftRight n).toInt := by
    rw [BitVec.toInt_sshiftRight, Int.shiftRight_eq_div_pow, Int.natCast_pow]
    rfl
  rw [shifted, BitVec.ofInt_toInt]

/-- **An operator computes the word of its number**, just where it does not shift a negative word to
the right. -/
theorem Binary.result_of_number {op : Binary} {a b : Word} {n : Int}
    (exact : op.number? a.toInt b.toInt = some n) :
    ∃ w, op.result a b = some w ∧ (w = BitVec.ofInt 64 n ↔ op.signed a b = true) := by
  cases op with
  | add =>
    cases exact
    refine ⟨_, rfl, iff_of_true ?_ rfl⟩
    rw [BitVec.ofInt_add, BitVec.ofInt_toInt, BitVec.ofInt_toInt]
  | sub =>
    cases exact
    refine ⟨_, rfl, iff_of_true ?_ rfl⟩
    rw [Int.sub_eq_add_neg, BitVec.ofInt_add, BitVec.ofInt_neg, BitVec.ofInt_toInt,
      BitVec.ofInt_toInt, BitVec.sub_eq_add_neg]
  | mul =>
    cases exact
    refine ⟨_, rfl, iff_of_true ?_ rfl⟩
    rw [BitVec.ofInt_mul, BitVec.ofInt_toInt, BitVec.ofInt_toInt]
  | and | or | xor =>
    cases exact
    refine ⟨_, rfl, iff_of_true ?_ rfl⟩
    rw [BitVec.ofInt_toInt, BitVec.ofInt_toInt, BitVec.ofInt_toInt]
  | div | mod =>
    simp only [Binary.number?] at exact
    split at exact
    · cases exact
    · rename_i fits
      cases exact
      exact ⟨_, if_neg fits, iff_of_true rfl rfl⟩
  | shl =>
    cases exact
    refine ⟨_, rfl, iff_of_true ?_ rfl⟩
    rw [emod_toInt, ofInt_mul_two_pow]
  | shr =>
    cases exact
    refine ⟨_, rfl, ?_⟩
    rw [emod_toInt, ofInt_div_two_pow, ushiftRight_eq_sshiftRight_iff]
    simp [Binary.signed]
  | eq =>
    cases exact
    refine ⟨_, rfl, iff_of_true ?_ rfl⟩
    rw [Bool.beq_eq_decide_eq, truth_decide]
    exact congrArg _ (if_congr BitVec.toInt_inj.symm rfl rfl)
  | ne =>
    cases exact
    refine ⟨_, rfl, iff_of_true ?_ rfl⟩
    rw [bne, Bool.beq_eq_decide_eq, ← decide_not, truth_decide, ite_not]
    exact congrArg _ (if_congr BitVec.toInt_inj.symm rfl rfl)
  | lt | gt =>
    cases exact
    refine ⟨_, rfl, iff_of_true ?_ rfl⟩
    rw [BitVec.slt_eq_decide, truth_decide]
  | le | ge =>
    cases exact
    refine ⟨_, rfl, iff_of_true ?_ rfl⟩
    rw [BitVec.sle_eq_decide, truth_decide]

/-! ## What an operation makes of words -/

namespace Op

/-- How an operation rearranges what is on a stack, whatever that is, if it only does that. -/
def shuffle? {α : Type} : Op → List α → Option (List α)
  | dup, a :: rest => some (a :: a :: rest)
  | drop, _ :: rest => some rest
  | swap, b :: a :: rest => some (a :: b :: rest)
  | copySecond, b :: a :: rest => some (a :: b :: a :: rest)
  | rot, c :: b :: a :: rest => some (a :: c :: b :: rest)
  | _, _ => none

def isShuffle : Op → Bool
  | dup => true
  | drop => true
  | swap => true
  | copySecond => true
  | rot => true
  | _ => false

/-- The words that an operation leaves, if it is none of the operators and does nothing else. -/
def words? (L : Layout) (m : Memory) : Op → List Word → Option (List Word)
  | number v, ws => some (v.toBitVec :: ws)
  | bool v, ws => some (truth v :: ws)
  | string label length, ws => some (L.symbol label :: BitVec.ofNat 64 length :: ws)
  | cstring label, ws => some (L.symbol label :: ws)
  | memory label _, ws => some (L.symbol label :: ws)
  | not, a :: rest => some (truth (a == 0) :: rest)
  | load .word, a :: rest => some (m.load a :: rest)
  | load .byte, a :: rest => some ((m a).setWidth 64 :: rest)
  | load (.record r), a :: rest => some (fieldWords m a r.layout ++ rest)
  | field _ f, a :: rest => some ((a + BitVec.ofNat 64 f.offset) :: rest)
  | cast _, a :: rest => some (a :: rest)
  | op, ws => op.shuffle? ws

/-- The registers that an operation hands words over in, the one for the word on top first. -/
def registers : Op → List Reg
  | print => [.rdi]
  | streq => [.rsi, .rdx, .rdi, .rcx]
  | syscall arguments => .rax :: syscallRegisters.take arguments
  | _ => []

/-- What an operation hands words over to. -/
def callee? : Op → Option Instr
  | print => some (.call "print_decimal")
  | streq => some (.call "str_equal")
  | syscall _ => some .syscall
  | _ => none

/-- Does the one that words are handed over to answer with a word? -/
def answers : Op → Bool
  | streq => true
  | syscall _ => true
  | _ => false

/-- The words that an operation takes, if it concerns no pin. -/
def takes : Op → Nat
  | dup => 1
  | drop => 1
  | swap => 2
  | copySecond => 2
  | rot => 3
  | print => 1
  | binary _ => 2
  | not => 1
  | streq => 4
  | load _ => 1
  | store access => access.width + 1
  | field _ _ => 1
  | syscall arguments => arguments + 1
  | cast _ => 1
  | _ => 0

/-- The words that it gives for them. -/
def gives : Op → Nat
  | string _ _ => 2
  | dup => 2
  | drop => 0
  | swap => 2
  | copySecond => 3
  | rot => 3
  | print => 0
  | load access => access.width
  | store _ => 0
  | _ => 1

end Op

/-- Memory after words, the one on top first, went through an address. -/
def Access.stored (m : Memory) (a : Word) : Access → List Word → Memory
  | word, w :: _ => m.store a w
  | byte, w :: _ => m.storeByte a (w.setWidth 8)
  | record r, ws =>
      (r.layout.reverse.zip ws).foldl (fun m p => m.store (a + BitVec.ofNat 64 p.1.offset) p.2) m
  | _, [] => m

/-- An operation on a whole record finds it apart from the data stack. -/
def Op.OffStack (base : State) : Op → List Word → Prop
  | .load (.record r), a :: rest =>
      FieldsOff ((base.regs .rsp).toNat - 8 * (r.layout.length + rest.length))
        (base.regs .rsp).toNat a r.layout
  | .store (.record r), a :: rest =>
      FieldsOff ((base.regs .rsp).toNat - 8 * (rest.length + 1))
        (base.regs .rsp).toNat a r.layout
  | _, _ => True

/-! ## Words that are taken and given -/

section Counts

variable {op : Op} {place : Place} {shape after : Shape} {scope : List Pin}

theorem Op.counts_fixed (fits : op.Fits scope) {contract : Contract}
    (effect : op.contract? = some contract) :
    contract.takes = op.takes ∧ contract.leaves = op.gives := by
  cases op with
  | memory label ty =>
    cases effect
    have single := Ty.width_of_isPointer fits.1
    exact ⟨rfl, by simp [Contract.leaves, Op.gives, single]⟩
  | binary op => cases op <;> cases effect <;> exact ⟨rfl, rfl⟩
  | load access =>
    cases access with
    | byte =>
      cases effect
      exact ⟨rfl, rfl⟩
    | _ => cases effect
  | store access =>
    cases access with
    | byte =>
      cases effect
      exact ⟨rfl, rfl⟩
    | _ => cases effect
  | cast kind => cases kind <;> cases effect <;> exact ⟨rfl, rfl⟩
  | _ => cases effect <;> exact ⟨rfl, rfl⟩

/-- The typing rule of an operation takes and gives as many words as its code. -/
theorem Op.Turns.counts (turns : op.Turns place shape after) (fits : op.Fits scope) :
    op.takes ≤ shape.size ∧ after.size + op.takes = shape.size + op.gives := by
  cases turns with
  | dup | drop | swap | copySecond | rot => simp [Shape.size, Op.takes, Op.gives]
  | add rule =>
    rw [Shape.size_push, Ty.width_plus rule]
    simp [Shape.size, Op.takes, Op.gives]
  | sub rule =>
    rw [Shape.size_push, Ty.width_minus rule]
    simp [Shape.size, Op.takes, Op.gives]
  | load _ leads =>
    rw [Shape.size_push, width_pointee leads]
    simp [Shape.size, Op.takes, Op.gives]
    omega
  | store _ leads taken =>
    have count := taken.length_eq
    rw [List.length_reverse, Ty.length_words, width_pointee leads] at count
    simp [Shape.size, Op.takes, Op.gives, count]
    omega
  | syscall _ count _ =>
    have one : Ty.number.width = 1 := rfl
    rw [Shape.size_push]
    simp [Shape.size, Op.takes, Op.gives, count, one]
    omega
  | fixed effect taken =>
    obtain ⟨takes, gives⟩ := Op.counts_fixed fits effect
    have count := taken.length_eq
    rw [Shape.size_pushAll, ← takes, ← gives]
    simp only [Shape.size, List.length_append, List.length_reverse, count, Contract.takes,
      Contract.leaves]
    omega

/-- An operation that computes words has the words it needs. -/
theorem Op.exists_words {L : Layout} {m : Memory} {ws : List Word} (own : op.isPinning = false)
    (plain : op.callee? = none) (enough : op.takes ≤ ws.length)
    (operator : ∀ b, op ≠ .binary b) (store : ∀ a, op ≠ .store a) :
    ∃ out, op.words? L m ws = some out ∧ out.length + op.takes = ws.length + op.gives := by
  cases op with
  | number | bool | cstring | memory | string => exact ⟨_, rfl, rfl⟩
  | pin | unpin | pinned | update => cases own
  | print | streq | syscall => cases plain
  | binary b => exact absurd rfl (operator b)
  | store a => exact absurd rfl (store a)
  | dup | drop | not | field | cast =>
    match ws, enough with
    | a :: rest, _ => exact ⟨_, rfl, rfl⟩
  | swap | copySecond =>
    match ws, enough with
    | b :: a :: rest, _ => exact ⟨_, rfl, rfl⟩
  | rot =>
    match ws, enough with
    | c :: b :: a :: rest, _ => exact ⟨_, rfl, rfl⟩
  | load access =>
    match ws, enough with
    | a :: rest, _ =>
      cases access with
      | word =>
        refine ⟨m.load a :: rest, rfl, ?_⟩
        rw [List.length_cons, List.length_cons]
        rfl
      | byte => exact ⟨_, rfl, rfl⟩
      | record r =>
        refine ⟨_, rfl, ?_⟩
        simp only [fieldWords, List.length_append, List.length_reverse, List.length_map,
          List.length_cons, takes, gives, Access.width, Record.length_layout]
        omega

end Counts

/-! ## Shuffles -/

section Shuffles

variable {op : Op} {place : Place}

theorem Op.shuffle?_map (op : Op) {α β : Type} (f : α → β) (stack : List α) :
    op.shuffle? (stack.map f) = (op.shuffle? stack).map (List.map f) := by
  cases op with
  | dup | drop =>
    match stack with
    | [] | a :: rest => rfl
  | swap | copySecond =>
    match stack with
    | [] | [a] | b :: a :: rest => rfl
  | rot =>
    match stack with
    | [] | [a] | [b, a] | c :: b :: a :: rest => rfl
  | _ => rfl

theorem Op.plain_of_shuffle {L : Layout} {m : Memory} {w : List Word}
    (shuffles : op.isShuffle = true) :
    op.words? L m w = op.shuffle? w ∧ (∀ b, op ≠ .binary b) ∧ (∀ access, op ≠ .store access)
      ∧ op.callee? = none := by
  cases op with
  | dup | drop | swap | copySecond | rot => exact ⟨rfl, nofun, nofun, rfl⟩
  | _ => cases shuffles

theorem Op.Turns.shuffle {shape last : Shape} (shuffles : op.isShuffle = true)
    (turns : op.Turns place shape last) : op.shuffle? shape.cells = some last.cells := by
  cases turns with
  | dup | drop | swap | copySecond | rot => rfl
  | fixed effect taken =>
    cases op with
    | dup | drop | swap | copySecond | rot => cases effect
    | _ => cases shuffles
  | _ => cases shuffles

end Shuffles

end PinnedStack
