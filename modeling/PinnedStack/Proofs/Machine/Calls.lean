import PinnedStack.Proofs.Emission.Whole
import PinnedStack.Proofs.Machine.Saves

/-!
# Calls and returns

* `Memory.Pointed` — the pointer of the return stack. `Memory.Agrees` — memories with the same pins
  and the same words on the return stack from some address on.
* `Kept` — what a function that was called keeps on the return stack, and what it leaves alone.
* `State.calling`, `State.entered` — the states in front of a call and at the start of a body.
* `Forced.call`, `Forced.enter`, `entered_kept` — the way into a body. `Kept.leave` — the way back.
-/

namespace PinnedStack

open Asm

/-- The pointer of the return stack leads to an address inside the return stack. -/
structure Asm.Memory.Pointed (L : Layout) (m : Memory) (cell : Nat) : Prop where
  word : m.load (L.symbol "ret_stack_rsp") = BitVec.ofNat 64 cell
  low : L.returnStack ≤ cell
  high : cell ≤ L.returnEnd

/-- Two memories agree on the return stack from an address on, and on the pins that are not of some
kind. -/
structure Asm.Memory.Agrees (L : Layout) (own : Nat → Prop) (cell : Nat) (m m' : Memory) : Prop where
  stack : ∀ x : Word, cell ≤ x.toNat → x.toNat < L.returnEnd → m' x = m x
  pins : ∀ slot, L.Holds slot → ¬ own slot → m'.load (L.slot slot) = m.load (L.slot slot)

/-- Two memories agree on everything but the pins, the return stack and its pointer. -/
def Asm.Memory.Elsewhere (L : Layout) (m m' : Memory) : Prop :=
  ∀ x : Word, x.toNat < L.pins ∨ L.returnEnd ≤ x.toNat → m' x = m x

/-- What a function keeps from its caller, whose state in front of the call instruction is `s`: its
slots and the return address on the return stack, and everything above and elsewhere. -/
structure Kept (L : Layout) (f : Func) (s : State) (m : Memory) (cell : Nat) : Prop where
  room : cell + 8 * (f.slots.length + 1) = (s.regs .rsp).toNat
  saved : m.Lie cell (f.slots.reverse.map fun slot => s.mem.load (L.slot slot))
  back : m.load (BitVec.ofNat 64 (cell + 8 * f.slots.length)) = L.address (s.pc + 1)
  others : Memory.Agrees L (· ∈ f.slots) (s.regs .rsp).toNat s.mem m

/-- The state in front of a call instruction, from that in front of the call's code. -/
def Asm.State.calling (L : Layout) (s : State) : State :=
  ((s.set .rax (s.regs .rsp)).set .rsp (s.mem.load (L.symbol "ret_stack_rsp"))).goto (s.pc + 2)

/-- The state after the pointer of the return stack was put away. -/
def Asm.State.turned (L : Layout) (s : State) : State :=
  ({ s with mem := s.mem.store (L.symbol "ret_stack_rsp") (s.regs .rsp) }.set .rsp
    (s.regs .rax)).goto (s.pc + 2)

/-- The state behind the code of a call, from that at the end of the body of the callee. -/
def Asm.State.left (L : Layout) (f : Func) (back : Nat) (s : State) : State :=
  (((s.calling L).restored L f.slots.reverse).pop.goto back).turned L

/-- The state at the start of a body, from that in front of the call instruction. -/
def Asm.State.entered (L : Layout) (f : Func) (e : Nat) (s : State) : State :=
  (((s.push (L.address (s.pc + 1))).goto e).saved L f.slots).turned L

section Memory

variable {L : Layout} {own : Nat → Prop} {cell : Nat} {m m' m'' : Memory}

theorem Asm.Memory.Agrees.trans (h : Memory.Agrees L own cell m m')
    (h' : Memory.Agrees L own cell m' m'') : Memory.Agrees L own cell m m'' where
  stack x low high := (h'.stack x low high).trans (h.stack x low high)
  pins slot holds other := (h'.pins slot holds other).trans (h.pins slot holds other)

theorem Asm.Memory.Agrees.weaken {own' : Nat → Prop} {cell' : Nat}
    (h : Memory.Agrees L own cell m m') (le : cell ≤ cell') (imp : ∀ slot, own slot → own' slot) :
    Memory.Agrees L own' cell' m m' where
  stack x low high := h.stack x (Nat.le_trans le low) high
  pins slot holds other := h.pins slot holds fun mine => other (imp slot mine)

theorem Kept.congr {limits : Limits} {extent : Nat} (fits : L.Fits limits extent) {f : Func}
    {s : State} (kept : Kept L f s m cell) (high : (s.regs .rsp).toNat ≤ L.returnEnd)
    (agrees : Memory.Agrees L (· ∈ f.slots) cell m m') : Kept L f s m' cell := by
  have bounds := fits.returnPointer_lt
  have room := kept.room
  refine ⟨room, kept.saved.congr ?_ fun x low less => agrees.stack x low ?_, ?_, ?_⟩
  · rw [List.length_map, List.length_reverse]
    omega
  · rw [List.length_map, List.length_reverse] at less
    omega
  · rw [← kept.back]
    refine Memory.load_congr fun i lt => ?_
    have here : (BitVec.ofNat 64 (cell + 8 * f.slots.length) + BitVec.ofNat 64 i).toNat
        = cell + 8 * f.slots.length + i := by
      rw [← BitVec.ofNat_add, BitVec.toNat_ofNat, Nat.mod_eq_of_lt (by omega)]
    exact agrees.stack _ (by omega) (by omega)
  · exact kept.others.trans (agrees.weaken (by omega) fun _ mine => mine)

/-- The pointer is a word on its own. -/
theorem Asm.Memory.Pointed.congr {limits : Limits} {extent : Nat} (fits : L.Fits limits extent)
    (pointed : m.Pointed L cell)
    (same : ∀ x : Word, L.returnPointer ≤ x.toNat → x.toNat < L.returnStack → m' x = m x) :
    m'.Pointed L cell := by
  have bounds := fits.returnPointer_lt
  have address := fits.toNat_pointer
  refine ⟨?_, pointed.low, pointed.high⟩
  rw [← pointed.word]
  refine Memory.load_congr fun i lt => ?_
  have here : (L.symbol "ret_stack_rsp" + BitVec.ofNat 64 i).toNat = L.returnPointer + i := by
    rw [toNat_add_ofNat (by omega), address]
  exact same _ (by omega) (by omega)

end Memory

/-! ## Into a body -/

section Entered

variable {L : Layout} {limits : Limits} {extent : Nat} {s : State}

namespace Asm.State

@[simp] theorem turned_rsp (L : Layout) (s : State) : (s.turned L).regs .rsp = s.regs .rax := rfl
@[simp] theorem turned_r15 (L : Layout) (s : State) : (s.turned L).regs .r15 = s.regs .r15 := rfl
@[simp] theorem turned_pc (L : Layout) (s : State) : (s.turned L).pc = s.pc + 2 := rfl

theorem turned_mem (fits : L.Fits limits extent) {x : Word}
    (outside : x.toNat < L.returnPointer ∨ L.returnStack ≤ x.toNat) :
    (s.turned L).mem x = s.mem x := by
  have bounds := fits.returnPointer_lt
  have address := fits.toNat_pointer
  exact Memory.store_of_outside (by omega) (by omega)

theorem turned_pointed (low : L.returnStack ≤ (s.regs .rsp).toNat)
    (high : (s.regs .rsp).toNat ≤ L.returnEnd) :
    (s.turned L).mem.Pointed L (s.regs .rsp).toNat := by
  refine ⟨?_, low, high⟩
  rw [← eq_of_toNat_eq rfl]
  exact Memory.load_store_same ..

/-- At the start of a body the function keeps what it has to, and the rest of the memory is as it
was at the call. -/
theorem entered_kept (fits : L.Fits limits extent) {f : Func} {e : Nat}
    (holds : ∀ slot ∈ f.slots, L.Holds slot)
    (room : L.returnStack + 8 * (f.slots.length + 1) ≤ (s.regs .rsp).toNat)
    (high : (s.regs .rsp).toNat ≤ L.returnEnd) :
    Kept L f s (s.entered L f e).mem ((s.regs .rsp).toNat - 8 * (f.slots.length + 1))
      ∧ (s.entered L f e).mem.Pointed L ((s.regs .rsp).toNat - 8 * (f.slots.length + 1))
      ∧ Memory.Elsewhere L s.mem (s.entered L f e).mem := by
  have bounds := fits.returnPointer_lt
  have low := fits.low
  set pushed := (s.push (L.address (s.pc + 1))).goto e with pushed_eq
  have rsp : (pushed.regs .rsp).toNat = (s.regs .rsp).toNat - 8 :=
    toNat_sub_ofNat (n := 8) (by omega)
  have mem : pushed.mem = s.mem.store (pushed.regs .rsp) (L.address (s.pc + 1)) := rfl
  have under : ∀ x : Word, x.toNat < (pushed.regs .rsp).toNat ∨ (s.regs .rsp).toNat ≤ x.toNat →
      pushed.mem x = s.mem x := by
    intro x outside
    rw [mem]
    exact Memory.store_of_outside (by omega) (by omega)
  obtain ⟨moved, same, lie⟩ := saved_words fits holds (s := pushed) (by omega)
  set saved := pushed.saved L f.slots with saved_eq
  have cell : (saved.regs .rsp).toNat = (s.regs .rsp).toNat - 8 * (f.slots.length + 1) := by omega
  have whole : s.entered L f e = saved.turned L := rfl
  have turned : ∀ x : Word, L.returnStack ≤ x.toNat → (saved.turned L).mem x = saved.mem x :=
    fun x ge => turned_mem fits (.inr ge)
  have outer : ∀ x : Word, x.toNat < L.returnPointer ∨ (s.regs .rsp).toNat ≤ x.toNat →
      (saved.turned L).mem x = s.mem x := by
    intro x outside
    rw [turned_mem fits (by omega), same x (by omega), under x (by omega)]
  have words : (f.slots.reverse.map fun slot => s.mem.load (L.slot slot))
      = f.slots.reverse.map fun slot => pushed.mem.load (L.slot slot) := by
    refine List.map_congr_left fun slot mem => ?_
    exact (fits.load_slot (fun x _ less => under x (.inl (by omega)))
      (holds slot (List.mem_reverse.1 mem))).symm
  rw [whole, ← cell]
  refine ⟨⟨by omega, ?_, ?_, ?_, ?_⟩, turned_pointed (by omega) (by omega), ?_⟩
  · rw [words]
    refine lie.congr ?_ fun x ge _ => turned x (by omega)
    rw [List.length_map, List.length_reverse]
    omega
  · rw [moved, ← eq_of_toNat_eq rfl]
    refine Eq.trans (Memory.load_congr fun i lt => ?_)
      (Memory.load_store_same s.mem (pushed.regs .rsp) (L.address (s.pc + 1)))
    have here : (pushed.regs .rsp + BitVec.ofNat 64 i).toNat = (pushed.regs .rsp).toNat + i :=
      toNat_add_ofNat (by omega)
    rw [turned _ (by omega), same _ (.inr (by omega)), mem]
  · exact fun x ge _ => outer x (.inr ge)
  · exact fun slot here _ => fits.load_slot (fun x _ less => outer x (.inl less)) here
  · exact fun x outside => outer x (by omega)

end Asm.State

end Entered

section Calls

variable {M : Image} {whole rest : List MarkedLine} {limits : Limits} {calls : List Asm.Frame}
  {s : State} {f : Func} {e : Nat}

/-- The code of a call starts by carrying the data stack over to `rax`. -/
theorem Asm.Image.step_call_code {m : Mark} {call : Call} {c : Config}
    (lines : M.lines = whole.map Prod.fst)
    (placed : Placed whole s.pc (markFirst m (instrs call.code) ++ rest)) :
    M.Step ⟨s, calls⟩ c ↔ c = ⟨(s.set .rax (s.regs .rsp)).goto (s.pc + 1), calls⟩ :=
  Image.step_iff (Image.fetch lines placed.first) rfl

/-- From there the function is called and saves its slots. -/
theorem Asm.Image.Forced.call {m : Mark} {call : Call} (lines : M.lines = whole.map Prod.fst)
    (placed : Placed whole s.pc (markFirst m (instrs call.code) ++ rest)) (stands : Stands whole f e)
    (inner : f.isMain = false) (label : call.label = f.label)
    (r15 : s.regs .r15 = BitVec.ofNat 64 M.layout.pins) :
    M.Forced whole ⟨(s.set .rax (s.regs .rsp)).goto (s.pc + 1), calls⟩
      ⟨(((s.calling M.layout).push (M.layout.address (s.pc + 3))).goto e).saved M.layout f.slots,
        ⟨f.label, s.calling M.layout⟩ :: calls⟩ := by
  have second := placed.next
  have third := second.next
  have target : position? call.label M.lines = some e := by rw [lines, label, stands.label]
  have saves := stands.front
  rw [Func.front, inner, if_neg (by decide), Func.entering, instrs_append,
    unmarked_append] at saves
  rw [← label]
  refine .effect lines second.first rfl (.head ⟨_, third.first⟩ (fun _ => ?_) (.saves lines saves ?_))
  · exact Image.step_call_iff (Image.fetch lines third.first) target
  · exact r15

theorem Asm.Image.Forced.enter (lines : M.lines = whole.map Prod.fst) (stands : Stands whole f e)
    (inner : f.isMain = false) (pc : s.pc = e + f.slots.length) :
    M.Forced whole ⟨s, calls⟩ ⟨s.turned M.layout, calls⟩ := by
  have turn := stands.front
  rw [Func.front, inner, if_neg (by decide), Func.entering, instrs_append,
    unmarked_append] at turn
  have first := turn.right
  rw [itemsOf_unmarked, List.length_map, List.length_map, ← pc] at first
  exact .effect lines first.first rfl (.effect lines first.next.first rfl .refl)

theorem Asm.State.entered_pc {L : Layout} (f : Func) (e : Nat) (s : State) :
    (s.entered L f e).pc = e + f.slots.length + 2 := by
  rw [entered, turned_pc, saved_pc, goto_pc]

theorem Asm.State.entered_rsp {L : Layout} (f : Func) (e : Nat) (s : State) :
    (s.entered L f e).regs .rsp = s.regs .rax := by
  rw [entered, turned_rsp, saved_regs (by decide), goto_regs, push_of_ne (by decide)]

theorem Asm.State.entered_r15 {L : Layout} (f : Func) (e : Nat) (s : State) :
    (s.entered L f e).regs .r15 = s.regs .r15 := by
  rw [entered, turned_r15, saved_regs (by decide), goto_regs, push_of_ne (by decide)]

/-! ## Back to the caller -/

/-- The code behind a body starts by carrying the data stack over to `rax`. -/
theorem Asm.Image.step_leaving {m : Mark} {c : Config} (lines : M.lines = whole.map Prod.fst)
    (placed : Placed whole s.pc (markFirst m (instrs f.leaving))) :
    M.Step ⟨s, calls⟩ c ↔ c = ⟨(s.set .rax (s.regs .rsp)).goto (s.pc + 1), calls⟩ :=
  Image.step_iff (Image.fetch lines placed.first) rfl

/-- What a function kept is given back: it returns behind the call's code with the data stack it
ended with, the return stack and all pins are as they were at the call, and the rest of the memory is
as at the end of the body. -/
theorem Kept.left {L : Layout} {extent cell : Nat} (fits : L.Fits limits extent) {t : State}
    (kept : Kept L f t s.mem cell) (pointed : s.mem.Pointed L cell)
    (high : (t.regs .rsp).toNat ≤ L.returnEnd) (holds : ∀ slot ∈ f.slots, L.Holds slot) :
    ((s.calling L).restored L f.slots.reverse).top = L.address (t.pc + 1)
      ∧ (s.left L f (t.pc + 1)).mem.Pointed L (t.regs .rsp).toNat
      ∧ Memory.Agrees L (fun _ => False) (t.regs .rsp).toNat t.mem (s.left L f (t.pc + 1)).mem
      ∧ Memory.Elsewhere L s.mem (s.left L f (t.pc + 1)).mem := by
  have bounds := fits.returnPointer_lt
  have room := kept.room
  have low := pointed.low
  have rsp : ((s.calling L).regs .rsp).toNat = cell := by
    have word : (s.calling L).regs .rsp = BitVec.ofNat 64 cell := pointed.word
    rw [word, BitVec.toNat_ofNat, Nat.mod_eq_of_lt (by omega)]
  have length : f.slots.reverse.length = f.slots.length := List.length_reverse
  have own : ∀ slot ∈ f.slots.reverse, L.Holds slot := fun slot mem =>
    holds slot (List.mem_reverse.1 mem)
  obtain ⟨moved, clear, put⟩ := @State.restored_words L limits extent (s.calling L) fits
    f.slots.reverse (fun slot => t.mem.load (L.slot slot)) own (by omega) (by omega)
    (by rw [rsp]; exact kept.saved)
  rw [rsp, length] at moved
  set restored := (s.calling L).restored L f.slots.reverse with restored_eq
  have same : ∀ x : Word, x.toNat < L.pins ∨ L.returnPointer ≤ x.toNat →
      restored.mem x = s.mem x := fun x outside => clear x (Layout.clear_of_outside own outside)
  set back := restored.pop.goto (t.pc + 1) with back_eq
  have top : (back.regs .rsp).toNat = (t.regs .rsp).toNat := by
    have popped : back.regs .rsp = restored.regs .rsp + BitVec.ofNat 64 8 := rfl
    rw [popped, toNat_add_ofNat (by omega)]
    omega
  have whole : s.left L f (t.pc + 1) = back.turned L := rfl
  have outer : ∀ x : Word, x.toNat < L.pins ∨ L.returnStack ≤ x.toNat →
      (back.turned L).mem x = s.mem x := by
    intro x outside
    rw [State.turned_mem fits (by omega)]
    exact same x (by omega)
  have pins : ∀ slot, L.Holds slot →
      (back.turned L).mem.load (L.slot slot) = restored.mem.load (L.slot slot) := fun slot there =>
    fits.load_slot (fun x _ less => State.turned_mem fits (.inl less)) there
  rw [whole]
  refine ⟨?_, ?_, ⟨fun x ge less => ?_, fun slot there _ => ?_⟩, fun x outside => outer x (by omega)⟩
  · rw [← kept.back, State.top, eq_of_toNat_eq moved]
    refine Memory.load_congr fun i lt => same _ (.inr ?_)
    rw [← BitVec.ofNat_add, BitVec.toNat_ofNat, Nat.mod_eq_of_lt (by omega)]
    omega
  · rw [← top]
    exact State.turned_pointed (by omega) (by omega)
  · rw [outer x (by omega), kept.others.stack x ge less]
  · rw [pins slot there]
    by_cases mine : slot ∈ f.slots
    · exact put slot (List.mem_reverse.2 mine)
    · rw [fits.load_of_clear clear there fun mem => mine (List.mem_reverse.1 mem)]
      exact kept.others.pins slot there mine

section Leaving

variable {m : Mark} (lines : M.lines = whole.map Prod.fst)
  (placed : Placed whole s.pc (markFirst m (instrs f.leaving)))
  (r15 : s.regs .r15 = BitVec.ofNat 64 M.layout.pins)

include lines placed r15

/-- Behind its body a function gives back its slots and is in front of its return. -/
theorem Asm.Image.Forced.unsave :
    M.Forced whole ⟨(s.set .rax (s.regs .rsp)).goto (s.pc + 1), calls⟩
      ⟨(s.calling M.layout).restored M.layout f.slots.reverse, calls⟩
    ∧ (itemsOf whole)[((s.calling M.layout).restored M.layout f.slots.reverse).pc]?
      = some (.ret, none) := by
  have second := placed.next
  have pops : Placed whole (s.pc + 2) (unmarked (instrs
      ((f.slots.reverse.map fun slot => .pop (slotOperand slot)) ++ [.ret]))) := second.next
  rw [instrs_append, unmarked_append] at pops
  have ret := pops.right
  rw [itemsOf_unmarked, List.length_map, List.length_map] at ret
  have pc : ((s.calling M.layout).restored M.layout f.slots.reverse).pc
      = s.pc + 2 + f.slots.reverse.length := State.restored_pc ..
  rw [← pc] at ret
  exact ⟨.effect lines second.first rfl (.restores lines pops r15), ret.first⟩

/-- Then it returns, and the caller goes over to the data stack. -/
theorem Asm.Image.Forced.leave {t : State} (fits : M.layout.Fits limits M.code.length)
    (tail : Placed whole (t.pc + 1)
      (unmarked (instrs [.mov returnPointer (.reg .rsp), .movReg .rsp .rax]) ++ rest))
    (back : ((s.calling M.layout).restored M.layout f.slots.reverse).top
      = M.layout.address (t.pc + 1)) (label : String) :
    M.Forced whole ⟨(s.set .rax (s.regs .rsp)).goto (s.pc + 1), ⟨label, t⟩ :: calls⟩
      ⟨s.left M.layout f (t.pc + 1), calls⟩ := by
  obtain ⟨unsaved, ret⟩ := @Forced.unsave M whole (⟨label, t⟩ :: calls) s f m lines placed r15
  have inside : t.pc + 1 < M.code.length :=
    (List.getElem?_eq_some_iff.1 (Image.fetch lines tail.first)).1
  have only : ∀ c, M.Step ⟨(s.calling M.layout).restored M.layout f.slots.reverse,
      ⟨label, t⟩ :: calls⟩ c
        ↔ c = ⟨((s.calling M.layout).restored M.layout f.slots.reverse).pop.goto (t.pc + 1), calls⟩ :=
    fun _ => Image.step_ret_iff (Image.fetch lines ret) fits.address inside back.symm
  refine unsaved.trans (.head ⟨_, ret⟩ only ?_)
  exact .effect lines tail.first rfl (.effect lines tail.next.first rfl .refl)

end Leaving

theorem Asm.State.left_pc {L : Layout} (f : Func) (back : Nat) (s : State) :
    (s.left L f back).pc = back + 2 := rfl

theorem Asm.State.left_rsp {L : Layout} (f : Func) (back : Nat) (s : State) :
    (s.left L f back).regs .rsp = s.regs .rsp := by
  rw [left, turned_rsp, goto_regs, pop_of_ne (by decide), restored_regs (by decide)]
  rfl

theorem Asm.State.left_r15 {L : Layout} (f : Func) (back : Nat) (s : State) :
    (s.left L f back).regs .r15 = s.regs .r15 := by
  rw [left, turned_r15, goto_regs, pop_of_ne (by decide), restored_regs (by decide)]
  rfl

end Calls

end PinnedStack
