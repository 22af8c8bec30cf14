import PinnedStack.Proofs.Machine.Bodies
import PinnedStack.Proofs.Machine.Forced

/-!
# Saved slots

* `State.saved` — the state after the words of slots were pushed; `State.restored` — after words were
  taken off into slots.
* `Forced.saves`, `Forced.restores` — the instructions of a function that do so.
* `Layout.Clear` — a byte in none of some slots. `State.saved_words`, `State.restored_words` — both
  keep to their memory.
-/

namespace PinnedStack.Asm

variable {L : Layout}

def State.saved (L : Layout) : List Nat → State → State
  | [], s => s
  | slot :: slots, s => saved L slots ((s.push (s.mem.load (L.slot slot))).goto (s.pc + 1))

/-- Takes words off the stack into slots. -/
def State.restored (L : Layout) : List Nat → State → State
  | [], s => s
  | slot :: slots, s =>
      restored L slots ({ s.pop with mem := s.mem.store (L.slot slot) s.top }.goto (s.pc + 1))

namespace State

/-! ## Registers -/

theorem saved_pc (slots : List Nat) (s : State) : (s.saved L slots).pc = s.pc + slots.length := by
  induction slots generalizing s with
  | nil => rfl
  | cons slot slots ih =>
    rw [saved, ih, goto_pc, List.length_cons]
    omega

theorem saved_regs {r : Reg} (other : r ≠ .rsp) (slots : List Nat) (s : State) :
    (s.saved L slots).regs r = s.regs r := by
  induction slots generalizing s with
  | nil => rfl
  | cons slot slots ih => rw [saved, ih, goto_regs, push_of_ne other]

theorem saved_rsp (slots : List Nat) (s : State) :
    (s.saved L slots).regs .rsp = s.regs .rsp - BitVec.ofNat 64 (8 * slots.length) := by
  induction slots generalizing s with
  | nil => simp [saved]
  | cons slot slots ih =>
    have moved : ((s.push (s.mem.load (L.slot slot))).goto (s.pc + 1)).regs .rsp
        = s.regs .rsp - 8 := rfl
    rw [saved, ih, moved, List.length_cons, Nat.mul_succ, Nat.add_comm, BitVec.ofNat_add]
    simp only [BitVec.sub_eq_add_neg, BitVec.neg_add, BitVec.add_assoc]
    rfl

theorem restored_pc (slots : List Nat) (s : State) :
    (s.restored L slots).pc = s.pc + slots.length := by
  induction slots generalizing s with
  | nil => rfl
  | cons slot slots ih =>
    rw [restored, ih, goto_pc, List.length_cons]
    omega

theorem restored_regs {r : Reg} (other : r ≠ .rsp) (slots : List Nat) (s : State) :
    (s.restored L slots).regs r = s.regs r := by
  induction slots generalizing s with
  | nil => rfl
  | cons slot slots ih =>
    rw [restored, ih]
    exact pop_of_ne other

end State

/-! ## Instructions -/

section Forced

variable {M : Image} {whole rest : List MarkedLine} {calls : List Frame} {s : State} {e : Config}

theorem Image.Forced.saves {slots : List Nat} (lines : M.lines = whole.map Prod.fst)
    (placed : Placed whole s.pc
      (unmarked (instrs (slots.map fun slot => .push (slotOperand slot))) ++ rest))
    (r15 : s.regs .r15 = BitVec.ofNat 64 M.layout.pins) :
    M.Forced whole ⟨s, calls⟩ ⟨s.saved M.layout slots, calls⟩ := by
  induction slots generalizing s with
  | nil => exact .refl
  | cons slot slots ih =>
    refine .effect lines placed.first ?_ (ih placed.next r15)
    rw [Instr.effect, slotOperand, Operand.read, Layout.address_slot r15]
    rfl

theorem Image.Forced.restores {slots : List Nat} (lines : M.lines = whole.map Prod.fst)
    (placed : Placed whole s.pc
      (unmarked (instrs (slots.map fun slot => .pop (slotOperand slot))) ++ rest))
    (r15 : s.regs .r15 = BitVec.ofNat 64 M.layout.pins) :
    M.Forced whole ⟨s, calls⟩ ⟨s.restored M.layout slots, calls⟩ := by
  induction slots generalizing s with
  | nil => exact .refl
  | cons slot slots ih =>
    have address : (Mem.offset .r15 (slot * wordBytes)).address M.layout s.pop = M.layout.slot slot :=
      Layout.address_slot r15 slot
    refine .effect lines placed.first ?_ (ih placed.next r15)
    rw [Instr.effect, slotOperand, Operand.write, address]
    rfl

end Forced

/-! ## Memory -/

section Memory

variable {limits : Limits} {extent : Nat} {s : State}

/-- Pushing slots onto a stack above the pins puts their words there, the last one in front, and
changes nothing else. -/
theorem State.saved_words (fits : L.Fits limits extent) {slots : List Nat}
    (holds : ∀ slot ∈ slots, L.Holds slot)
    (room : L.returnStack + 8 * slots.length ≤ (s.regs .rsp).toNat) :
    ((s.saved L slots).regs .rsp).toNat + 8 * slots.length = (s.regs .rsp).toNat
      ∧ (∀ x : Word, x.toNat < ((s.saved L slots).regs .rsp).toNat ∨ (s.regs .rsp).toNat ≤ x.toNat →
        (s.saved L slots).mem x = s.mem x)
      ∧ (s.saved L slots).mem.Lie ((s.saved L slots).regs .rsp).toNat
        (slots.reverse.map fun slot => s.mem.load (L.slot slot)) := by
  induction slots generalizing s with
  | nil => exact ⟨rfl, fun _ _ => rfl, trivial⟩
  | cons slot slots ih =>
    have bounds := fits.returnPointer_lt
    have high := (s.regs .rsp).isLt
    rw [List.length_cons] at room
    set w := s.mem.load (L.slot slot) with word
    set t := (s.push w).goto (s.pc + 1) with pushed
    have rsp : (t.regs .rsp).toNat = (s.regs .rsp).toNat - 8 := toNat_sub_ofNat (n := 8) (by omega)
    have mem : t.mem = s.mem.store (t.regs .rsp) w := rfl
    obtain ⟨moved, same, lie⟩ := @ih t (fun slot here => holds slot (List.mem_cons_of_mem _ here))
      (by omega)
    have whole : s.saved L (slot :: slots) = t.saved L slots := rfl
    rw [whole, List.length_cons]
    refine ⟨by omega, fun x outside => ?_, ?_⟩
    · rw [same x (by omega), mem]
      exact Memory.store_of_outside (by omega) (by omega)
    · have slotsSame : slots.reverse.map (fun slot => s.mem.load (L.slot slot))
          = slots.reverse.map fun slot => t.mem.load (L.slot slot) := by
        refine List.map_congr_left fun other here => ?_
        have there := holds other (List.mem_cons_of_mem _ (List.mem_reverse.1 here))
        have address := fits.toNat_slot there
        have low := fits.low
        unfold Layout.Holds at there
        rw [mem]
        exact (Memory.load_store_apart (by omega) (by omega)).symm
      have here : ((t.saved L slots).regs .rsp).toNat + 8 * slots.length = (t.regs .rsp).toNat := by
        omega
      rw [List.reverse_cons, List.map_append, Memory.lie_append, slotsSame, List.length_map,
        List.length_reverse, here]
      refine ⟨lie, ?_, trivial⟩
      -- The word of the first slot lies highest, where the later pushes do not come.
      rw [← eq_of_toNat_eq rfl]
      refine Eq.trans (Memory.load_congr fun i lt => ?_) (Memory.load_store_same s.mem (t.regs .rsp) w)
      refine same _ (.inr ?_)
      rw [toNat_add_ofNat (by omega)]
      omega

/-- A byte that is in none of some slots. -/
def Layout.Clear (L : Layout) (slots : List Nat) (x : Word) : Prop :=
  ∀ slot ∈ slots, x.toNat < L.pins + 8 * slot ∨ L.pins + 8 * slot + 8 ≤ x.toNat

theorem Layout.clear_of_outside {slots : List Nat} (holds : ∀ slot ∈ slots, L.Holds slot) {x : Word}
    (outside : x.toNat < L.pins ∨ L.returnPointer ≤ x.toNat) : L.Clear slots x := by
  intro slot mem
  have inside := holds slot mem
  unfold Layout.Holds at inside
  omega

/-- The word of a slot that is not among others depends on no byte of theirs. -/
theorem Layout.Fits.load_of_clear (fits : L.Fits limits extent) {slots : List Nat} {m m' : Memory}
    (same : ∀ x, L.Clear slots x → m' x = m x) {slot : Nat} (holds : L.Holds slot)
    (absent : slot ∉ slots) : m'.load (L.slot slot) = m.load (L.slot slot) := by
  have bounds := fits.returnPointer_lt
  have address := fits.toNat_slot holds
  unfold Layout.Holds at holds
  refine Memory.load_congr fun i lt => same _ fun other mem => ?_
  have apart : other ≠ slot := fun eq => absent (eq ▸ mem)
  rw [toNat_add_ofNat (by omega), address]
  omega

/-- Taking words off a stack above the pins into slots puts them there, and changes nothing else. -/
theorem State.restored_words (fits : L.Fits limits extent) {slots : List Nat} {word : Nat → Word}
    (holds : ∀ slot ∈ slots, L.Holds slot) (low : L.returnPointer ≤ (s.regs .rsp).toNat)
    (high : (s.regs .rsp).toNat + 8 * slots.length < 2 ^ 64)
    (lie : s.mem.Lie (s.regs .rsp).toNat (slots.map word)) :
    ((s.restored L slots).regs .rsp).toNat = (s.regs .rsp).toNat + 8 * slots.length
      ∧ (∀ x, L.Clear slots x → (s.restored L slots).mem x = s.mem x)
      ∧ ∀ slot ∈ slots, (s.restored L slots).mem.load (L.slot slot) = word slot := by
  induction slots generalizing s with
  | nil => exact ⟨rfl, fun _ _ => rfl, by simp⟩
  | cons slot slots ih =>
    rw [List.length_cons] at high
    set t := { s.pop with mem := s.mem.store (L.slot slot) s.top }.goto (s.pc + 1) with popped
    obtain ⟨there, others⟩ := List.forall_mem_cons.1 holds
    have address := fits.toNat_slot there
    have inside := there
    unfold Layout.Holds at inside
    obtain ⟨first, lie⟩ := lie
    rw [← eq_of_toNat_eq rfl] at first
    have rsp : (t.regs .rsp).toNat = (s.regs .rsp).toNat + 8 :=
      toNat_add_ofNat (a := s.regs .rsp) (n := 8) (by omega)
    have mem : t.mem = s.mem.store (L.slot slot) (word slot) := by
      rw [← first]
      rfl
    have outer : ∀ x, L.Clear [slot] x → t.mem x = s.mem x := by
      intro x clear
      have := clear slot (List.mem_singleton_self slot)
      rw [mem]
      exact Memory.store_of_outside (by omega) (by omega)
    obtain ⟨moved, same, put⟩ := @ih t others (by omega) (by omega) (by
      rw [rsp]
      refine lie.congr ?_ fun x le _ => outer x ?_
      · rw [List.length_map]
        omega
      · exact Layout.clear_of_outside (List.forall_mem_singleton.2 there) (.inr (by omega)))
    have whole : s.restored L (slot :: slots) = t.restored L slots := rfl
    rw [whole, List.length_cons]
    refine ⟨by omega, fun x clear => ?_, fun other among => ?_⟩
    · obtain ⟨here, later⟩ := List.forall_mem_cons.1 clear
      rw [same x later, outer x (List.forall_mem_singleton.2 here)]
    · by_cases later : other ∈ slots
      · exact put other later
      · obtain rfl : other = slot := by simpa [later] using among
        rw [fits.load_of_clear same there later, mem, Memory.load_store_same]

end Memory

end PinnedStack.Asm
