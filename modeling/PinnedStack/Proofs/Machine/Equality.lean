import PinnedStack.Proofs.Machine.Decimal
import PinnedStack.Proofs.Machine.Reads

/-!
# Comparison of byte ranges

* `Memory.Agree`, `Span.Same` — bytes at two places in memory that are the same.
* `State.first`, `State.second` — the two ranges that are on the data stack.
* `CompareCall.rounds` — what the loop of the routine decides. `CompareCall.ends` — what the routine
  answers.
* `Program.streq_decides` — the code of the operation decides whether the ranges are the same, and
  reads no other bytes. `streq_of_overwritten` — the return address lies where one of the four words
  was, and is compared in its place.
-/

namespace PinnedStack

open Asm

namespace Asm

/-! ## Ranges of bytes -/

/-- Some bytes at one address are those at another. -/
def Memory.Agree (m : Memory) (a b : Word) (n : Nat) : Prop :=
  ∀ i < n, m (a + BitVec.ofNat 64 i) = m (b + BitVec.ofNat 64 i)

instance (m : Memory) (a b : Word) (n : Nat) : Decidable (m.Agree a b n) :=
  inferInstanceAs (Decidable (∀ i < n, _))

theorem add_ofNat_succ (a : Word) (i : Nat) :
    a + BitVec.ofNat 64 (i + 1) = a + 1 + BitVec.ofNat 64 i := by
  rw [BitVec.ofNat_add, BitVec.add_comm (BitVec.ofNat 64 i), ← BitVec.add_assoc]
  rfl

theorem Memory.agree_succ {m : Memory} {a b : Word} {n : Nat} :
    m.Agree a b (n + 1) ↔ m a = m b ∧ m.Agree (a + 1) (b + 1) n := by
  constructor
  · intro all
    have first := all 0 (Nat.succ_pos n)
    rw [BitVec.add_zero, BitVec.add_zero] at first
    refine ⟨first, fun i lt => ?_⟩
    rw [← add_ofNat_succ, ← add_ofNat_succ]
    exact all (i + 1) (Nat.succ_lt_succ lt)
  · rintro ⟨first, rest⟩ i lt
    cases i with
    | zero => rwa [BitVec.add_zero, BitVec.add_zero]
    | succ i =>
      rw [add_ofNat_succ, add_ofNat_succ]
      exact rest i (Nat.lt_of_succ_lt_succ lt)

/-- What was stored is gone when something else is stored there. -/
theorem Memory.store_store (m : Memory) (a w w' : Word) :
    (m.store a w).store a w' = m.store a w' := by
  funext x
  by_cases within : (x - a).toNat < 8
  · exact (if_pos within).trans (if_pos within).symm
  · exact (if_neg within).trans ((if_neg within).trans (if_neg within).symm)

/-- Bytes one after the other, as an address and their number. -/
structure Span where
  start : Word
  length : Word
deriving DecidableEq

/-- The address is that of one of the bytes. -/
def Span.Has (r : Span) (x : Word) : Prop := (x - r.start).toNat < r.length.toNat

theorem Span.has_iff {r : Span} {x : Word} :
    r.Has x ↔ ∃ i < r.length.toNat, r.start + BitVec.ofNat 64 i = x := by
  constructor
  · intro inside
    refine ⟨_, inside, ?_⟩
    rw [BitVec.ofNat_toNat, BitVec.setWidth_eq]
    exact add_sub_cancel r.start x
  · rintro ⟨i, lt, rfl⟩
    have := r.length.isLt
    rw [Has, add_sub_cancel_left, BitVec.toNat_ofNat, Nat.mod_eq_of_lt (by omega)]
    exact lt

theorem Span.has_of_mem_bytesFrom {a x : Word} {k n : Nat} (size : Nat)
    (mem : x ∈ bytesFrom (a + BitVec.ofNat 64 k) n) (le : k + n ≤ size) (small : size < 2 ^ 64) :
    Span.Has ⟨a, BitVec.ofNat 64 size⟩ x := by
  obtain ⟨i, lt, rfl⟩ := mem_bytesFrom.1 mem
  refine has_iff.2 ⟨k + i, ?_, ?_⟩
  · rw [BitVec.toNat_ofNat, Nat.mod_eq_of_lt small]
    omega
  · rw [BitVec.ofNat_add, ← BitVec.add_assoc]

/-- Two ranges of the same length hold the same bytes. -/
def Span.Same (m : Memory) (r r' : Span) : Prop :=
  r.length = r'.length ∧ m.Agree r.start r'.start r.length.toNat

instance (m : Memory) (r r' : Span) : Decidable (r.Same m r') :=
  inferInstanceAs (Decidable (_ ∧ _))

/-- The bytes of two ranges depend on memory there only. -/
theorem Span.same_congr {m m' : Memory} {r r' : Span}
    (same : ∀ x, r.Has x ∨ r'.Has x → m' x = m x) : r.Same m' r' ↔ r.Same m r' := by
  refine and_congr_right fun lengths => forall₂_congr fun i lt => ?_
  rw [same _ (.inl (has_iff.2 ⟨i, lt, rfl⟩)), same _ (.inr (has_iff.2 ⟨i, lengths ▸ lt, rfl⟩))]

/-! ## The routine at work -/

/-- The routine that was called in state `s` has returned to position `q` with its answer. -/
structure State.Answered (s : State) (answer : Bool) (q : Nat) (calls : List Frame)
    (made : List State) (d : Config) : Prop where
  silent : made = []
  calls : d.calls = calls
  pc : d.state.pc = q
  rax : d.state.regs .rax = truth answer
  rsp : d.state.regs .rsp = s.regs .rsp + 8
  r15 : d.state.regs .r15 = s.regs .r15
  mem : d.state.mem = s.mem

/-- The state in which the comparison is called, where it returns to and what it may read. -/
structure CompareCall (M : Image) (may : Instr → Word → Prop) (s : State) (q e : Nat) : Prop where
  carries : M.Carries .strEqual e
  address : ∀ a < M.code.length, ∀ b < M.code.length,
    M.layout.address a = M.layout.address b → a = b
  into : q < M.code.length
  back : M.layout.address q = s.top
  returns : ∀ x ∈ bytesFrom (s.regs .rsp) 8, may .ret x

namespace CompareCall

variable {M : Image} {may : Instr → Word → Prop} {s u : State} {q e : Nat} {fr : Frame}
  {calls : List Frame}

/-- From `.done` on the routine returns with what is in `rax`. -/
theorem done {answer : Bool} (c : CompareCall M may s q e) (pc : u.pc = e + 13) (quiet : s.Quiet u)
    (rax : u.regs .rax = truth answer) :
    M.Ends (M.ReadsOnly may) (s.Answered answer q calls) [] ⟨u, fr :: calls⟩ := by
  have ends : M.code[u.pc]? = some .ret := pc ▸ c.carries.fetch (k := 13) rfl
  have back : M.layout.address q = u.top := by
    rw [c.back, State.top, State.top, quiet.mem, quiet.rsp]
  refine .ret ends c.address c.into back (.of_fetch ends fun x mem => ?_) (.here ?_)
  · rw [Instr.reads, quiet.rsp] at mem
    exact c.returns x mem
  · exact ⟨rfl, rfl, rfl, rax, congrArg (· + 8) quiet.rsp, quiet.r15, quiet.mem⟩

/-- From `.equal` on the answer is that the ranges are the same. -/
theorem equal (c : CompareCall M may s q e) (pc : u.pc = e + 12) (quiet : s.Quiet u) :
    M.Ends (M.ReadsOnly may) (s.Answered true q calls) [] ⟨u, fr :: calls⟩ := by
  have moves : M.Holds u.pc [.movImm .rax 1] := pc ▸ c.carries.part 12 1 (by decide)
  refine .unread moves rfl (by simp [Instr.movImm, Instr.reads, Operand.bytes]) ?_
  exact c.done (congrArg (· + 1) pc) ⟨quiet.mem, quiet.rsp, quiet.r15⟩ rfl

/-- At `.compare` the loop ends if nothing is left. -/
theorem test {last : List State → Config → Prop} {made : List State} {b : Bool}
    (c : CompareCall M may s q e) (pc : u.pc = e + 3) (left : decide (u.regs .rcx = 0) = b)
    (rest : ∀ v, u.Quiet v → v.regs = u.regs → v.pc = (if b then e + 12 else e + 5) →
      M.Ends (M.ReadsOnly may) last made ⟨v, fr :: calls⟩) :
    M.Ends (M.ReadsOnly may) last made ⟨u, fr :: calls⟩ := by
  have tests : M.code[u.pc]? = some (.testReg .rcx) := pc ▸ c.carries.fetch (k := 3) rfl
  have jumps : M.code[u.pc + 1]? = some (.jump .z ".equal") := by
    rw [pc]
    exact c.carries.fetch (k := 4) rfl
  have zero : Cond.z.holds (.ofConjunction (u.regs .rcx) (u.regs .rcx)) = b := by
    rw [← left, ← beq_eq_decide]
    exact congrArg (· == 0) BitVec.and_self
  refine .deciding tests rfl nofun rfl jumps (c.carries.label ".equal" 12 rfl) ?_
  refine rest _ ⟨rfl, rfl, rfl⟩ rfl ?_
  rw [zero, pc]
  rfl

/-- In each round two bytes are compared. -/
theorem compare {last : List State → Config → Prop} {made : List State} {b : Bool}
    (c : CompareCall M may s q e) (pc : u.pc = e + 5) (left : ∀ j, may j (u.regs .rdi))
    (right : ∀ j, may j (u.regs .rsi)) (bytes : (u.mem (u.regs .rdi) != u.mem (u.regs .rsi)) = b)
    (rest : ∀ v, u.Quiet v → (∀ r, r ≠ .r8 → v.regs r = u.regs r) →
      v.pc = (if b then e + 13 else e + 8) →
      M.Ends (M.ReadsOnly may) last made ⟨v, fr :: calls⟩) :
    M.Ends (M.ReadsOnly may) last made ⟨u, fr :: calls⟩ := by
  have moves : M.code[u.pc]? = some (.mov (.low .r8b) (.mem (.at .rdi))) :=
    pc ▸ c.carries.fetch (k := 5) rfl
  have compares : M.code[u.pc + 1]? = some (.cmp (.low .r8b) (.mem (.at .rsi))) := by
    rw [pc]
    exact c.carries.fetch (k := 6) rfl
  have jumps : M.code[u.pc + 1 + 1]? = some (.jump .ne ".done") := by
    rw [pc]
    exact c.carries.fetch (k := 7) rfl
  let byte : Word := BitVec.ofNat 64
    ((u.regs .r8).toNat / 256 * 256 + (u.mem (u.regs .rdi)).toNat)
  have differ : Cond.ne.holds (.ofDifference (byte.setWidth 8) (u.mem (u.regs .rsi))) = b := by
    rw [setWidth_lowEnd, ← bytes]
    rfl
  refine .reading moves (t := u.set .r8 byte) rfl (forall_mem_byte (left _)) ?_
  refine .deciding (s := (u.set .r8 byte).goto (u.pc + 1)) compares rfl
    (forall_mem_byte (right _)) rfl jumps (c.carries.label ".done" 13 rfl) ?_
  refine rest _ ⟨rfl, rfl, rfl⟩ (fun r ne => if_neg ne) ?_
  show (if Cond.ne.holds (.ofDifference (byte.setWidth 8) (u.mem (u.regs .rsi))) then e + 13
    else u.pc + 1 + 2) = _
  rw [differ, pc]

/-- Behind two bytes that are the same the next ones are turned to. -/
theorem advance {last : List State → Config → Prop} {made : List State}
    (c : CompareCall M may s q e) (pc : u.pc = e + 8)
    (rest : ∀ v, u.Quiet v → v.regs .rax = u.regs .rax → v.regs .rcx = u.regs .rcx - 1 →
      v.regs .rdi = u.regs .rdi + 1 → v.regs .rsi = u.regs .rsi + 1 → v.pc = e + 3 →
      M.Ends (M.ReadsOnly may) last made ⟨v, fr :: calls⟩) :
    M.Ends (M.ReadsOnly may) last made ⟨u, fr :: calls⟩ := by
  have moves : M.Holds u.pc
      [.unary .inc (.reg .rdi), .unary .inc (.reg .rsi), .unary .dec (.reg .rcx)] :=
    pc ▸ c.carries.part 8 3 (by decide)
  have again : M.code[u.pc + 3]? = some (.jmp ".compare") := by
    rw [pc]
    exact c.carries.fetch (k := 11) rfl
  let moved : State := (((u.set .rdi (u.regs .rdi + 1)).set .rsi (u.regs .rsi + 1)).set .rcx
    (u.regs .rcx - 1)).forget.goto (u.pc + 3)
  refine .unread (t := moved) moves rfl (by simp [Instr.reads, Operand.bytes]) ?_
  refine .jmp (s := moved) again (c.carries.label ".compare" 3 rfl) (.of_nil again rfl) ?_
  exact rest _ ⟨rfl, rfl, rfl⟩ rfl rfl rfl rfl rfl

/-- From `.compare` on the rest of the ranges is compared. -/
theorem rounds {n : Nat} (c : CompareCall M may s q e) (pc : u.pc = e + 3) (quiet : s.Quiet u)
    (zero : u.regs .rax = 0) (count : (u.regs .rcx).toNat = n)
    (left : ∀ i < n, ∀ j, may j (u.regs .rdi + BitVec.ofNat 64 i))
    (right : ∀ i < n, ∀ j, may j (u.regs .rsi + BitVec.ofNat 64 i)) :
    M.Ends (M.ReadsOnly may)
      (s.Answered (s.mem.Agree (u.regs .rdi) (u.regs .rsi) n) q calls) [] ⟨u, fr :: calls⟩ := by
  -- The count goes down by one a round, and both pointers move on with it.
  induction n generalizing u with
  | zero =>
    have none : u.regs .rcx = 0 := BitVec.eq_of_toNat_eq count
    refine c.test pc (decide_eq_true none) fun v same _ vpc => ?_
    rw [decide_eq_true (show s.mem.Agree _ _ 0 from nofun)]
    exact c.equal vpc (quiet.trans same)
  | succ n ih =>
    have some : u.regs .rcx ≠ 0 := by
      intro none
      rw [none] at count
      cases count
    refine c.test pc (decide_eq_false some) fun v same regs vpc => ?_
    have first : ∀ j, may j (v.regs .rdi) := by
      intro j
      rw [regs]
      simpa using left 0 (Nat.succ_pos n) j
    have second : ∀ j, may j (v.regs .rsi) := by
      intro j
      rw [regs]
      simpa using right 0 (Nat.succ_pos n) j
    refine c.compare vpc first second rfl fun w silent others wpc => ?_
    have kept : s.Quiet w := (quiet.trans same).trans silent
    have mem : v.mem = s.mem := same.mem.trans quiet.mem
    rw [regs] at others wpc
    rw [mem] at wpc
    have rax : w.regs .rax = 0 := (others .rax (by decide)).trans zero
    by_cases agree : s.mem (u.regs .rdi) = s.mem (u.regs .rsi)
    · rw [agree, bne_self_eq_false, if_neg Bool.false_ne_true] at wpc
      refine c.advance wpc fun x quick xax xcx xdi xsi xpc => ?_
      rw [others .rcx (by decide)] at xcx
      rw [others .rdi (by decide)] at xdi
      rw [others .rsi (by decide)] at xsi
      have fewer : (x.regs .rcx).toNat = n := by
        have less : (u.regs .rcx - 1).toNat = (u.regs .rcx).toNat - 1 :=
          toNat_sub_ofNat (n := 1) (by omega)
        rw [xcx, less, count, Nat.add_sub_cancel]
      have rest : s.mem.Agree (u.regs .rdi) (u.regs .rsi) (n + 1)
          ↔ s.mem.Agree (x.regs .rdi) (x.regs .rsi) n := by
        rw [Memory.agree_succ, xdi, xsi, and_iff_right agree]
      rw [decide_eq_decide.2 rest]
      refine ih xpc (kept.trans quick) (xax.trans rax) fewer ?_ ?_
      · intro i lt
        rw [xdi, ← add_ofNat_succ]
        exact left (i + 1) (Nat.succ_lt_succ lt)
      · intro i lt
        rw [xsi, ← add_ofNat_succ]
        exact right (i + 1) (Nat.succ_lt_succ lt)
    · have differ : (s.mem (u.regs .rdi) != s.mem (u.regs .rsi)) = true := bne_iff_ne.2 agree
      rw [differ, if_pos rfl] at wpc
      rw [decide_eq_false fun all => agree (Memory.agree_succ.1 all).1]
      exact c.done wpc kept rax

/-- The routine answers whether the two ranges are the same. -/
theorem ends (c : CompareCall M may s q s.pc)
    (left : ∀ x, Span.Has ⟨s.regs .rdi, s.regs .rcx⟩ x → ∀ j, may j x)
    (right : ∀ x, Span.Has ⟨s.regs .rsi, s.regs .rdx⟩ x → ∀ j, may j x) :
    M.Ends (M.ReadsOnly may)
      (s.Answered (Span.Same s.mem ⟨s.regs .rdi, s.regs .rcx⟩ ⟨s.regs .rsi, s.regs .rdx⟩) q calls)
      [] ⟨s, fr :: calls⟩ := by
  have clears : M.code[s.pc]? = some (.arithReg .xor .rax .rax) := c.carries.fetch (k := 0) rfl
  have compares : M.code[s.pc + 1]? = some (.cmp (.reg .rcx) (.reg .rdx)) :=
    c.carries.fetch (k := 1) rfl
  have jumps : M.code[s.pc + 1 + 1]? = some (.jump .ne ".done") := c.carries.fetch (k := 2) rfl
  let clear : State :=
    ((s.set .rax (s.regs .rax ^^^ s.regs .rax)).forget).goto (s.pc + 1)
  suffices next : ∀ v : State, s.Quiet v → v.regs = clear.regs →
      v.pc = (if s.regs .rcx != s.regs .rdx then s.pc + 13 else s.pc + 3) →
      M.Ends (M.ReadsOnly may) _ [] ⟨v, fr :: calls⟩ from
    .reading clears rfl nofun (.deciding (s := clear) compares rfl nofun rfl jumps
      (c.carries.label ".done" 13 rfl) (next _ ⟨rfl, rfl, rfl⟩ rfl rfl))
  intro v quiet regs pc
  have zero : v.regs .rax = 0 := by
    rw [regs]
    exact BitVec.xor_self
  by_cases lengths : s.regs .rcx = s.regs .rdx
  · have whole : Span.Same s.mem ⟨s.regs .rdi, s.regs .rcx⟩ ⟨s.regs .rsi, s.regs .rdx⟩
        ↔ s.mem.Agree (v.regs .rdi) (v.regs .rsi) (s.regs .rcx).toNat := by
      rw [regs]
      exact and_iff_right lengths
    rw [lengths, bne_self_eq_false, if_neg Bool.false_ne_true] at pc
    rw [decide_eq_decide.2 whole]
    refine c.rounds pc quiet zero (by rw [regs]; rfl) ?_ ?_
    · intro i lt
      rw [regs]
      exact left _ (Span.has_iff.2 ⟨i, lt, rfl⟩)
    · intro i lt
      rw [regs]
      exact right _ (Span.has_iff.2 ⟨i, lengths ▸ lt, rfl⟩)
  · rw [bne_iff_ne.2 lengths, if_pos rfl] at pc
    rw [decide_eq_false fun same => lengths same.1]
    exact c.done pc quiet zero

end CompareCall

/-! ## The operation -/

/-- Does an instruction take a word off the stack? -/
def Instr.unstacks : Instr → Bool
  | pop _ => true
  | ret => true
  | _ => false

namespace State

/-- The range that was pushed first: its length lies deepest, below its address. -/
def first (s : State) : Span := ⟨s.mem.load (s.regs .rsp + 16), s.mem.load (s.regs .rsp + 24)⟩

/-- The range that was pushed last: its address is on top. -/
def second (s : State) : Span := ⟨s.mem.load (s.regs .rsp), s.mem.load (s.regs .rsp + 8)⟩

/-- What comparison may read: the bytes of both ranges, and the four words when it takes words off
the stack. -/
def MayCompare (s : State) (i : Instr) (x : Word) : Prop :=
  s.first.Has x ∨ s.second.Has x ∨ (i.unstacks = true ∧ Span.Has ⟨s.regs .rsp, 32⟩ x)

/-- The word that the length of the first range lies in. The routine's return address is kept there,
and then the answer. -/
def deepest (s : State) : Span := ⟨s.regs .rsp + 24, 8⟩

/-- Memory with a word in place of the deepest one. -/
def withDeepest (s : State) (w : Word) : Memory := s.mem.store s.deepest.start w

/-- The four words are gone and the answer is pushed. -/
structure Compared (s : State) (answer : Bool) (calls : List Frame) (made : List State)
    (d : Config) : Prop where
  silent : made = []
  calls : d.calls = calls
  pc : d.state.pc = s.pc + 6
  rsp : d.state.regs .rsp = s.regs .rsp + 24
  pushed : d.state.top = truth answer
  mem : d.state.mem = s.withDeepest (truth answer)
  r15 : d.state.regs .r15 = s.regs .r15

/-- The state behind `pop` to a register. -/
def popTo (s : State) (r : Reg) : State := (s.pop.set r s.top).goto (s.pc + 1)

/-- The four words are handed over to the routine. -/
def handed (s : State) : State := (((s.popTo .rsi).popTo .rdx).popTo .rdi).popTo .rcx

theorem handed_rsp (s : State) : s.handed.regs .rsp = s.regs .rsp + 32 := by
  show s.regs .rsp + 8 + 8 + 8 + 8 = _
  rw [BitVec.add_assoc, BitVec.add_assoc, BitVec.add_assoc]
  rfl

/-- The word that is pushed after the four are gone takes the place of the deepest. -/
theorem push_handed {s t : State} (rsp : t.regs .rsp = s.regs .rsp + 32) (w : Word) :
    (t.push w).regs .rsp = s.deepest.start ∧ (t.push w).mem = t.mem.store s.deepest.start w := by
  have down : t.regs .rsp - 8 = s.deepest.start := by
    rw [rsp, add_sub_assoc]
    rfl
  exact ⟨down, congrArg (t.mem.store · w) down⟩

/-- The state in which the routine starts, with its return address on the stack. -/
def comparing (s : State) (w : Word) (e : Nat) : State := (s.handed.push w).goto e

section Comparing

variable {s : State} {w : Word} {e : Nat}

theorem comparing_of_ne {r : Reg} (ne : r ≠ .rsp) : (s.comparing w e).regs r = s.handed.regs r :=
  push_of_ne (w := w) ne

theorem comparing_rsp : (s.comparing w e).regs .rsp = s.deepest.start :=
  (push_handed s.handed_rsp w).1

theorem comparing_mem : (s.comparing w e).mem = s.withDeepest w := (push_handed s.handed_rsp w).2

theorem comparing_first :
    Span.mk ((s.comparing w e).regs .rdi) ((s.comparing w e).regs .rcx) = s.first := by
  rw [comparing_of_ne (r := .rdi) (by decide), comparing_of_ne (r := .rcx) (by decide)]
  show Span.mk (s.mem.load (s.regs .rsp + 8 + 8)) (s.mem.load (s.regs .rsp + 8 + 8 + 8)) = _
  rw [BitVec.add_assoc, BitVec.add_assoc]
  rfl

theorem comparing_second :
    Span.mk ((s.comparing w e).regs .rsi) ((s.comparing w e).regs .rdx) = s.second := by
  rw [comparing_of_ne (r := .rsi) (by decide), comparing_of_ne (r := .rdx) (by decide)]
  rfl

end Comparing

end State

section Operation

variable {M : Image} {last : List State → Config → Prop} {made : List State} {s u : State}
  {calls : List Frame} {e : Nat}

/-- Each of the four words may be read when it is taken off. -/
theorem State.MayCompare.unstacked {a x : Word} {i : Instr} (k : Nat) (takes : i.unstacks = true)
    (there : a = s.regs .rsp + BitVec.ofNat 64 k) (mem : x ∈ bytesFrom a 8) (le : k ≤ 24) :
    s.MayCompare i x := by
  subst there
  exact .inr (.inr ⟨takes, Span.has_of_mem_bytesFrom 32 mem (by omega) (by decide)⟩)

/-- One of the four words is taken off. -/
theorem Image.Ends.handing {r : Reg} (fetch : M.code[u.pc]? = some (.popReg r)) (k : Nat)
    (there : u.regs .rsp = s.regs .rsp + BitVec.ofNat 64 k) (le : k ≤ 24)
    (rest : M.Ends (M.ReadsOnly s.MayCompare) last made ⟨u.popTo r, calls⟩) :
    M.Ends (M.ReadsOnly s.MayCompare) last made ⟨u, calls⟩ :=
  .reading fetch rfl (fun _ mem => .unstacked k rfl there mem le) rest

/-- The routine is called with the return address in the place of the deepest word. -/
theorem CompareCall.of_holds (carries : M.Carries .strEqual e)
    (address : ∀ a < M.code.length, ∀ b < M.code.length,
      M.layout.address a = M.layout.address b → a = b) (holds : M.Holds s.pc Op.streq.code) :
    CompareCall M s.MayCompare (s.comparing (M.layout.address (s.pc + 5)) e) (s.pc + 5) e := by
  have behind : M.code[s.pc + 5]? = some (.pushReg .rax) := holds.get (k := 5) rfl
  refine ⟨carries, address, (List.getElem?_eq_some_iff.1 behind).1, ?_, fun x mem => ?_⟩
  · rw [State.top, State.comparing_rsp, State.comparing_mem]
    exact (Memory.load_store_same ..).symm
  · exact .unstacked 24 rfl State.comparing_rsp mem (Nat.le_refl 24)

/-- The answer of the routine is pushed. -/
theorem State.Answered.pushed {answer : Bool} {w : Word} {d : Config}
    (done : (s.comparing w e).Answered answer (s.pc + 5) calls made d)
    (holds : M.Holds s.pc Op.streq.code) :
    M.Ends (M.ReadsOnly s.MayCompare) (s.Compared answer calls) made d := by
  obtain ⟨silent, back, pc, rax, rsp, r15, mem⟩ := done
  have pushes : M.code[d.state.pc]? = some (.pushReg .rax) := pc ▸ holds.get (k := 5) rfl
  have gone : d.state.regs .rsp = s.regs .rsp + 32 := by
    rw [rsp, comparing_rsp]
    exact BitVec.add_assoc ..
  obtain ⟨down, stores⟩ := push_handed gone (d.state.regs .rax)
  rw [mem, comparing_mem, withDeepest, Memory.store_store] at stores
  refine .reading pushes (t := d.state.push (d.state.regs .rax)) rfl nofun (.here ?_)
  refine ⟨silent, back, congrArg (· + 1) pc, down, ?_, ?_, ?_⟩
  · rw [← rax]
    exact Memory.load_store_same ..
  · rw [← rax]
    exact stores
  · exact r15.trans (comparing_of_ne (by decide))

end Operation

end Asm

open Asm

section Program

variable {M : Image} {p : Program} {tables : Tables} {limits : Limits} {text file : String}
  {s : State} {calls : List Asm.Frame}

/-- The code of `streq` compares the ranges as they are once the return address is in the deepest
word. -/
theorem Program.streq_ends (ok : Program.ofText limits text file = .ok (p, tables))
    (lines : M.lines = p.lines tables limits)
    (address : ∀ a < M.code.length, ∀ b < M.code.length,
      M.layout.address a = M.layout.address b → a = b)
    (holds : M.Holds s.pc Op.streq.code) :
    M.Ends (M.ReadsOnly s.MayCompare)
      (s.Compared (s.first.Same (s.withDeepest (M.layout.address (s.pc + 5))) s.second) calls) []
      ⟨s, calls⟩ := by
  obtain ⟨e, entry, carries⟩ := Program.carries ok lines (r := .strEqual) (.tail _ (.head _))
  -- Each `pop` finds the stack one word higher than the one before.
  refine .handing (holds.get (k := 0) rfl) 0 (BitVec.add_zero _).symm (by decide) ?_
  refine .handing (holds.get (k := 1) rfl) 8 rfl (by decide) ?_
  refine .handing (holds.get (k := 2) rfl) 16 (BitVec.add_assoc ..) (by decide) ?_
  refine .handing (holds.get (k := 3) rfl) 24 ?_ (by decide) ?_
  · exact (congrArg (· + 8) (BitVec.add_assoc ..)).trans (BitVec.add_assoc ..)
  have fetch : M.code[s.handed.pc]? = some (.call "str_equal") := holds.get (k := 4) rfl
  refine .call (s := s.handed) fetch entry (.of_nil fetch rfl) ?_
  have answers := @CompareCall.ends M _ _ _ ⟨"str_equal", s.handed⟩ calls
    (.of_holds carries address holds)
  rw [State.comparing_first, State.comparing_second, State.comparing_mem] at answers
  exact (answers (fun x has _ => .inl has) fun x has _ => .inr (.inl has)).bind
    fun made d done => done.pushed holds

/-- **`streq` decides whether two byte ranges are the same.** Wherever its code stands in a program,
whatever is in memory and however the ranges overlap, every run of it ends behind the code without a
system call; on the way it reads the bytes of the two ranges, the four words that it takes off and
its return address; and in place of the four words it leaves one if the lengths are equal and all
bytes are, else zero. The return address lies in the word that the length of the first range was
taken from, which makes no difference to ranges without that word. -/
theorem Program.streq_decides (ok : Program.ofText limits text file = .ok (p, tables))
    (lines : M.lines = p.lines tables limits)
    (address : ∀ a < M.code.length, ∀ b < M.code.length,
      M.layout.address a = M.layout.address b → a = b)
    (holds : M.Holds s.pc Op.streq.code) :
    M.Ends (M.ReadsOnly s.MayCompare)
      (s.Compared (s.first.Same (s.withDeepest (M.layout.address (s.pc + 5))) s.second) calls) []
      ⟨s, calls⟩
    ∧ ((∀ x, s.first.Has x ∨ s.second.Has x → ¬ s.deepest.Has x) → ∀ w,
        s.first.Same (s.withDeepest w) s.second ↔ s.first.Same s.mem s.second) := by
  refine ⟨streq_ends ok lines address holds, fun apart w => Span.same_congr fun x inside => ?_⟩
  exact Memory.store_of_apart (Nat.le_of_not_lt (apart x inside))

end Program

/-- The program that compares two equal strings. -/
def comparesOnce : Program where
  functions := []
  main := .entry [.op (.string "str_0" 3) ⟨1, 1, "t"⟩, .op (.string "str_0" 3) ⟨1, 7, "t"⟩,
    .op .streq ⟨1, 13, "t"⟩, .op .print ⟨1, 19, "t"⟩] ⟨1, 1, "t"⟩

theorem ofText_comparesOnce :
    Program.ofText {} "\"aaa\" \"aaa\" streq print" "t"
      = .ok (comparesOnce, ⟨[[97, 97, 97]], []⟩) := by
  rfl

/-- `comparesOnce` in memory. -/
def compareImage : Image := ⟨comparesOnce.lines ⟨[[97, 97, 97]], []⟩ {}, .usual⟩

/-- In front of the comparison of three bytes with three that begin one later, all the same. -/
def beforeCompare : State where
  regs r :=
    match r with
    | .rsp => 200000
    | _ => 0
  flags := none
  mem := (((Memory.store (fun _ => 97) 200000 300001).store 200008 3).store 200016 300000).store
    200024 3
  pc := 51

theorem fits_compareImage : Layout.usual.Fits {} compareImage.code.length :=
  Layout.fits_usual (by decide +kernel)

theorem holds_compareImage : compareImage.Holds 51 Op.streq.code :=
  ⟨compareImage.code.take 51, compareImage.code.drop 57, by decide +kernel, by decide +kernel⟩

/-- The overlapping ranges are the same. -/
theorem streq_decides_overlapping :
    compareImage.Ends (compareImage.ReadsOnly beforeCompare.MayCompare)
      (beforeCompare.Compared true []) [] ⟨beforeCompare, []⟩ := by
  have first : beforeCompare.first = ⟨300000, 3⟩ := by decide +kernel
  have second : beforeCompare.second = ⟨300001, 3⟩ := by decide +kernel
  obtain ⟨ends, kept⟩ := @Program.streq_decides compareImage _ _ _ _ _ beforeCompare []
    ofText_comparesOnce rfl fits_compareImage.address holds_compareImage
  have same (w : Word) :
      beforeCompare.first.Same (beforeCompare.withDeepest w) beforeCompare.second := by
    refine (kept (fun x inside => ?_) w).2 (by decide +kernel)
    rw [first, second] at inside
    simp only [Span.Has, State.deepest, beforeCompare] at inside ⊢
    bv_omega
  rwa [decide_eq_true (same _)] at ends

/-- In front of the comparison of the eight bytes of the word that their number lies in with eight
bytes elsewhere, all the same. -/
def beforeOverwrite : State where
  regs r :=
    match r with
    | .rsp => 200000
    | _ => 0
  flags := none
  mem := (((Memory.store (Memory.store (fun _ => 0) 300000 8) 200000 300000).store 200008 8).store
    200016 200024).store 200024 8
  pc := 51

/-- **A range that the return address is stored into is compared with it there**: the two ranges hold
the same bytes and zero is pushed. -/
theorem streq_of_overwritten :
    beforeOverwrite.first = ⟨200024, 8⟩ ∧ beforeOverwrite.second = ⟨300000, 8⟩
      ∧ beforeOverwrite.first.Same beforeOverwrite.mem beforeOverwrite.second
      ∧ compareImage.Ends (compareImage.ReadsOnly beforeOverwrite.MayCompare)
        (beforeOverwrite.Compared false []) [] ⟨beforeOverwrite, []⟩ := by
  have ends := @Program.streq_ends compareImage _ _ _ _ _ beforeOverwrite []
    ofText_comparesOnce rfl fits_compareImage.address holds_compareImage
  have differ : ¬ beforeOverwrite.first.Same
      (beforeOverwrite.withDeepest (compareImage.layout.address (beforeOverwrite.pc + 5)))
      beforeOverwrite.second := by decide +kernel
  rw [decide_eq_false differ] at ends
  exact ⟨by decide +kernel, by decide +kernel, by decide +kernel, ends⟩

end PinnedStack
