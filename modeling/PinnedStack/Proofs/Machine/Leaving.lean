import Mathlib.Data.BitVec
import PinnedStack.Proofs.Machine.Constants

/-!
# Code that leaves words

* `State.Leaves` — words on a stack, and memory below them as it was.
* `Leaving` — code that leaves words. `Leaving.replaced` — code that replaces words on top.
* `outcomes_popRegs`, `leaving_moved` — words that are popped into registers, and pushed again.
* `leaving_fields`, `outcomes_storeFields` — the fields of a record, pushed and popped in order.
-/

namespace PinnedStack

namespace Asm

/-! ## Words that are left -/

/-- `t` has left words on the stack that `base` had before it: below them, memory is that of `s`. -/
structure State.Leaves (base s t : State) (ws : List Word) : Prop where
  grown : base.Grown t ws
  below : ∀ x : Word, x.toNat < (t.regs .rsp).toNat → t.mem x = s.mem x

/-- Takes some words off the stack. -/
def State.popped (s : State) : Nat → State
  | 0 => s
  | n + 1 => s.pop.popped n

/-- Pushes words, the last one first. -/
def State.pushed (s : State) : List Word → State
  | [] => s
  | w :: ws => (s.pushed ws).push w

@[simp] theorem State.popped_mem (s : State) (n : Nat) : (s.popped n).mem = s.mem := by
  induction n generalizing s with
  | zero => rfl
  | succ n ih => exact ih s.pop

theorem State.Grown.congr {base t u : State} {ws : List Word} (h : base.Grown t ws)
    (same : t.Quiet u) : base.Grown u ws := by
  refine ⟨?_, ?_, fun x le => ?_, same.r15.trans h.r15⟩
  · rw [same.rsp]
    exact h.rsp
  · rw [same.rsp, same.mem]
    exact h.words
  · rw [same.mem, h.above x le]

theorem State.Grown.popped {base s : State} {taken rest : List Word}
    (h : base.Grown s (taken ++ rest)) : base.Grown (s.popped taken.length) rest := by
  induction taken generalizing s with
  | nil => exact h
  | cons w taken ih => exact ih h.pop.1

namespace State.Leaves

variable {base s t u : State} {w : Word} {ws outs rest : List Word}

theorem of_mem (grown : base.Grown t ws) (mem : t.mem = s.mem) : base.Leaves s t ws :=
  ⟨grown, fun x _ => congrFun mem x⟩

theorem congr (h : base.Leaves s t ws) (same : t.Quiet u) : base.Leaves s u ws := by
  refine ⟨h.grown.congr same, fun x lt => ?_⟩
  rw [same.rsp] at lt
  rw [same.mem, h.below x lt]

theorem push (h : base.Leaves s t ws) (room : 8 * (ws.length + 1) ≤ (base.regs .rsp).toNat)
    (pushed : (t.push w).Quiet u) : base.Leaves s u (w :: ws) := by
  have size := h.grown.rsp
  have top : (u.regs .rsp).toNat = (t.regs .rsp).toNat - 8 := by
    rw [pushed.rsp]
    exact toNat_sub_ofNat (a := t.regs .rsp) (n := 8) (by omega)
  refine ⟨h.grown.push room pushed, fun x lt => ?_⟩
  rw [pushed.mem, State.push_mem, ← State.push_rsp t w, ← pushed.rsp,
    Memory.store_of_outside (by have := (t.regs .rsp).isLt; omega) (.inl lt)]
  exact h.below x (by omega)

theorem pushed (h : base.Leaves s t rest)
    (room : 8 * (outs ++ rest).length ≤ (base.regs .rsp).toNat) :
    base.Leaves s (t.pushed outs) (outs ++ rest) := by
  induction outs with
  | nil => exact h
  | cons w outs ih =>
    rw [List.cons_append, List.length_cons] at room
    exact (ih (by omega)).push room ⟨rfl, rfl, rfl⟩

end State.Leaves

/-- Code of `n` instructions leads straight to where it leaves some words. -/
def Image.Leads (M : Image) (base s : State) (calls : List Frame) (n : Nat) (ws : List Word) :
    Prop :=
  ∃ t, M.Straight ⟨s, calls⟩ ⟨t, calls⟩ ∧ t.pc = s.pc + n ∧ base.Leaves s t ws

end Asm

open Asm

/-! ## Code and what it leaves -/

section Code

variable {L : Layout} {base s : State} {ws : List Word}

/-- Code that leaves words. -/
def Leaving (L : Layout) (base s : State) (is : List Instr) (ws : List Word) : Prop :=
  ∃ t, outcomes L is s = some t ∧ base.Leaves s t ws

/-- Code that replaces words on top by others. -/
theorem Leaving.replaced {is : List Instr} {t : State} {rest : List Word} (taken outs : List Word)
    (grown : base.Grown s (taken ++ rest))
    (room : 8 * (outs ++ rest).length ≤ (base.regs .rsp).toNat) (done : outcomes L is s = some t)
    (same : ((s.popped taken.length).pushed outs).Quiet t) : Leaving L base s is (outs ++ rest) :=
  ⟨t, done, ((State.Leaves.of_mem grown.popped (State.popped_mem ..)).pushed room).congr same⟩

theorem Leaving.leads {M : Image} {calls : List Asm.Frame} {is : List Instr}
    (leaving : Leaving M.layout base s is ws) (holds : M.Holds s.pc is) :
    M.Leads base s calls is.length ws := by
  obtain ⟨t, done, left⟩ := leaving
  exact ⟨t, holds.straight done, outcomes_pc done, left⟩

/-- Words that are popped into registers. -/
theorem outcomes_popRegs {regs : List Reg} (distinct : regs.Nodup)
    (free : ∀ r ∈ regs, r ≠ .rsp ∧ r ≠ .r15) (grown : base.Grown s ws)
    (enough : regs.length ≤ ws.length) :
    ∃ t, outcomes L (regs.map .popReg) s = some t ∧ regs.map t.regs = ws.take regs.length
      ∧ base.Grown t (ws.drop regs.length) ∧ t.mem = s.mem
      ∧ ∀ r, r ∉ regs → r ≠ .rsp → t.regs r = s.regs r := by
  induction regs generalizing s ws with
  | nil => exact ⟨s, rfl, rfl, grown, rfl, fun _ _ _ => rfl⟩
  | cons r regs ih =>
    match ws, enough with
    | w :: ws, enough =>
      obtain ⟨below, rfl⟩ := grown.pop
      obtain ⟨first, others⟩ := List.nodup_cons.1 distinct
      obtain ⟨rsp, r15⟩ := free r (List.mem_cons_self ..)
      let u : State := (s.pop.set r s.top).goto (s.pc + 1)
      have set : s.pop.Quiet (s.pop.set r s.top) := (State.Quiet.refl s.pop).set rsp r15
      have same : s.pop.Quiet u := ⟨set.mem, set.rsp, set.r15⟩
      obtain ⟨t, done, words, rest, mem, kept⟩ := ih others
        (fun x mem => free x (List.mem_cons_of_mem _ mem)) (below.congr same)
        (Nat.le_of_succ_le_succ enough)
      refine ⟨t, done, ?_, rest, mem, fun x new other => ?_⟩
      · have here : u.regs r = s.top := State.set_same ..
        rw [List.map_cons, words, kept r first rsp, here]
        rfl
      · obtain ⟨ne, later⟩ := not_or.1 (mt List.mem_cons.2 new)
        have old : u.regs x = s.pop.regs x := if_neg ne
        rw [kept x later other, old, State.pop_of_ne other]

/-- Registers that are pushed. -/
theorem leaving_pushRegs {t : State} {regs : List Reg} (free : ∀ r ∈ regs, r ≠ .rsp)
    (leaves : base.Leaves s t ws)
    (room : 8 * (regs.length + ws.length) ≤ (base.regs .rsp).toNat) :
    ∃ u, outcomes L (regs.map .pushReg) t = some u
      ∧ base.Leaves s u ((regs.map t.regs).reverse ++ ws) := by
  induction regs generalizing t ws with
  | nil => exact ⟨t, rfl, leaves⟩
  | cons r regs ih =>
    rw [List.length_cons, Nat.add_right_comm] at room
    have later := fun x mem => free x (List.mem_cons_of_mem _ mem)
    let u : State := (t.push (t.regs r)).goto (t.pc + 1)
    have kept : regs.map u.regs = regs.map t.regs := by
      refine List.map_congr_left fun x mem => ?_
      show (t.push (t.regs r)).regs x = t.regs x
      exact State.push_of_ne (later x mem)
    have pushed : base.Leaves s u (t.regs r :: ws) := leaves.push (by omega) ⟨rfl, rfl, rfl⟩
    obtain ⟨v, done, rest⟩ := ih later pushed (by rw [List.length_cons]; omega)
    refine ⟨v, done, ?_⟩
    rw [kept] at rest
    rw [List.map_cons, List.reverse_cons, List.append_assoc]
    exact rest

/-- Words that are popped into registers, some of which are pushed again. -/
theorem leaving_moved (taken back : List Reg) {outs : List Word} (distinct : taken.Nodup)
    (free : ∀ r ∈ taken, r ≠ .rsp ∧ r ≠ .r15) (among : ∀ r ∈ back, r ≠ .rsp)
    (grown : base.Grown s ws) (enough : taken.length ≤ ws.length)
    (room : 8 * outs.length ≤ (base.regs .rsp).toNat)
    (moved : ∀ f : Reg → Word, taken.map f = ws.take taken.length →
      (back.map f).reverse ++ ws.drop taken.length = outs) :
    Leaving L base s (taken.map .popReg ++ back.map .pushReg) outs := by
  obtain ⟨t, pops, words, rest, mem, -⟩ := outcomes_popRegs (L := L) distinct free grown enough
  obtain rfl := moved t.regs words
  rw [List.length_append, List.length_reverse, List.length_map] at room
  obtain ⟨u, pushes, left⟩ := leaving_pushRegs (L := L) among (.of_mem rest mem) room
  refine ⟨u, ?_, left⟩
  rw [outcomes_append, pops]
  exact pushes

/-! ## Records -/

theorem add_eight_add (a : Word) (n : Nat) :
    a + 8 + BitVec.ofNat 64 (8 * n) = a + BitVec.ofNat 64 (8 * (n + 1)) := by
  have eight : (8 : Word) = BitVec.ofNat 64 8 := rfl
  rw [eight, BitVec.add_assoc, ← BitVec.ofNat_add, Nat.mul_succ, Nat.add_comm 8]

/-- The fields of a record at an address are not among the bytes from `low` up to `high`. -/
def FieldsOff (low high : Nat) (a : Word) (fields : List PlacedField) : Prop :=
  ∀ f ∈ fields, ∀ i < 8, (a + BitVec.ofNat 64 f.offset + BitVec.ofNat 64 i).toNat < low
    ∨ high ≤ (a + BitVec.ofNat 64 f.offset + BitVec.ofNat 64 i).toNat

/-- The words of the fields of a record in memory, the last one first. -/
def fieldWords (m : Memory) (a : Word) (fields : List PlacedField) : List Word :=
  (fields.map fun f => m.load (a + BitVec.ofNat 64 f.offset)).reverse

/-- The fields of a record are pushed, through the address in `rax`. -/
theorem leaving_fields {t : State} {a : Word} {fields : List PlacedField} (rax : t.regs .rax = a)
    (above : ∀ x : Word, (base.regs .rsp).toNat ≤ x.toNat → s.mem x = base.mem x)
    (leaves : base.Leaves s t ws)
    (room : 8 * (fields.length + ws.length) ≤ (base.regs .rsp).toNat)
    (off : FieldsOff ((base.regs .rsp).toNat - 8 * (fields.length + ws.length))
      (base.regs .rsp).toNat a fields) :
    ∃ u, outcomes L (fields.map fun f => .push (.qword (.offset .rax f.offset))) t = some u
      ∧ base.Leaves s u (fieldWords s.mem a fields ++ ws) := by
  induction fields generalizing t ws with
  | nil => exact ⟨t, rfl, leaves⟩
  | cons f fields ih =>
    subst rax
    rw [List.length_cons, Nat.add_right_comm] at room off
    have size := leaves.grown.rsp
    have same : t.mem.load (t.regs .rax + BitVec.ofNat 64 f.offset)
        = s.mem.load (t.regs .rax + BitVec.ofNat 64 f.offset) := by
      refine Memory.load_congr fun i lt => ?_
      rcases off f (List.mem_cons_self ..) i lt with low | high
      · exact leaves.below _ (by omega)
      · rw [leaves.grown.above _ high, above _ high]
    let u : State := (t.push (t.mem.load (t.regs .rax + BitVec.ofNat 64 f.offset))).goto (t.pc + 1)
    have pushed : base.Leaves s u (_ :: ws) := leaves.push (by omega) ⟨rfl, rfl, rfl⟩
    obtain ⟨v, done, rest⟩ := ih (t := u) rfl pushed (by rw [List.length_cons]; omega)
      fun g mem => by
        rw [List.length_cons, ← Nat.add_assoc]
        exact off g (List.mem_cons_of_mem _ mem)
    refine ⟨v, done, ?_⟩
    rw [same] at rest
    rw [fieldWords, List.map_cons, List.reverse_cons, List.append_assoc]
    exact rest

/-- A store at an address leaves the bytes alone that lie apart from the word there. -/
theorem Memory.store_of_ne {m : Memory} {a w x : Word} (ne : ∀ i < 8, x ≠ a + BitVec.ofNat 64 i) :
    m.store a w x = m x := by
  refine Memory.store_of_apart ?_
  by_contra near
  refine ne (x - a).toNat (by omega) ?_
  rw [BitVec.ofNat_toNat, BitVec.setWidth_eq, add_sub_cancel]

/-- The words on top go to the fields of a record, through the address in `rax`. -/
theorem outcomes_storeFields {t : State} {a : Word} {fields : List PlacedField} {high : Nat}
    (rax : t.regs .rax = a) (enough : fields.length ≤ ws.length)
    (words : t.mem.Lie (t.regs .rsp).toNat ws)
    (size : (t.regs .rsp).toNat + 8 * ws.length = high) (fits : high < 2 ^ 64)
    (off : FieldsOff (t.regs .rsp).toNat high a fields) :
    ∃ u, outcomes L (fields.map fun f => .pop (.qword (.offset .rax f.offset))) t = some u
      ∧ u.mem = (fields.zip ws).foldl
        (fun m p => m.store (a + BitVec.ofNat 64 p.1.offset) p.2) t.mem
      ∧ u.regs .rsp = t.regs .rsp + BitVec.ofNat 64 (8 * fields.length)
      ∧ u.regs .r15 = t.regs .r15 := by
  induction fields generalizing t ws with
  | nil => exact ⟨t, rfl, rfl, (BitVec.add_zero _).symm, rfl⟩
  | cons f fields ih =>
    match ws, enough with
    | w :: ws, enough =>
      subst rax
      obtain ⟨top, rest⟩ := words
      rw [BitVec.ofNat_toNat, BitVec.setWidth_eq] at top
      rw [List.length_cons] at size
      let u : State := { t.pop with
        mem := t.mem.store (t.regs .rax + BitVec.ofNat 64 f.offset) t.top }.goto (t.pc + 1)
      have next : (u.regs .rsp).toNat = (t.regs .rsp).toNat + 8 :=
        toNat_add_ofNat (a := t.regs .rsp) (n := 8) (by omega)
      have kept : u.mem.Lie (u.regs .rsp).toNat ws := by
        rw [next]
        refine rest.congr (by omega) fun x low lt => Memory.store_of_ne fun i few => ?_
        rintro rfl
        have apart := off f (List.mem_cons_self ..) i few
        omega
      obtain ⟨v, done, mem, rsp, r15⟩ := ih (t := u) rfl (Nat.le_of_succ_le_succ enough) kept
        (by rw [next]; omega) fun g mem i few => by
          rcases off g (List.mem_cons_of_mem _ mem) i few with low | above
          · exact .inl (by rw [next]; exact Nat.lt_add_right 8 low)
          · exact .inr above
      refine ⟨v, done, ?_, ?_, r15⟩
      · rw [mem, List.zip_cons_cons, List.foldl_cons, ← top]
        rfl
      · rw [rsp, List.length_cons]
        exact add_eight_add (t.regs .rsp) fields.length

end Code

end PinnedStack
