import PinnedStack.Proofs.Emission.Levels
import PinnedStack.Proofs.Machine.Leaving
import PinnedStack.Proofs.Machine.Saves
import PinnedStack.Proofs.Pins.Slots

/-!
# Values in pins

What is bound to pins, read from them and put into them again, word by word.

* `Memory.held` — the words in slots. `State.restored_grown`, `State.saved_grown` — words go from
  the stack into slots, and back in the opposite order.
* `Reader.Creates` — pins that are brought into scope together. `Creates.slots` — they share no
  slot.
* `Reader.exists_value` — which words verification lets each of them be bound to.
* `Pin.Reads`, `Pin.Updates` — what reading and updating a pin does.
* `Reader.Creates.keeps_values` — the words of all values go into their slots and back.
-/

namespace PinnedStack

namespace Asm

variable {L : Layout} {limits : Limits} {extent : Nat} {base s : State} {slots : List Nat}
  {ws taken rest : List Word}

/-! ## Slots and the data stack -/

/-- The words in slots. -/
def Memory.held (L : Layout) (m : Memory) (slots : List Nat) : List Word :=
  slots.map fun slot => m.load (L.slot slot)

theorem outcomes_pops (r15 : s.regs .r15 = BitVec.ofNat 64 L.pins) (slots : List Nat) :
    outcomes L (slots.map fun slot => .pop (slotOperand slot)) s = some (s.restored L slots) := by
  induction slots generalizing s with
  | nil => rfl
  | cons slot slots ih =>
    let t : State := { s.pop with mem := s.mem.store (L.slot slot) s.top }
    have address : (Mem.offset .r15 (slot * wordBytes)).address L s.pop = L.slot slot :=
      Layout.address_slot r15 slot
    have one : (Instr.pop (slotOperand slot)).outcome L s = some t := by
      show Operand.write L s.pop s.top (slotOperand slot) = _
      rw [slotOperand, Operand.write, address]
      rfl
    rw [List.map_cons, outcomes, one]
    exact ih (s := t.goto (s.pc + 1)) r15

theorem outcomes_pushes (r15 : s.regs .r15 = BitVec.ofNat 64 L.pins) (slots : List Nat) :
    outcomes L (slots.map fun slot => .push (slotOperand slot)) s = some (s.saved L slots) := by
  induction slots generalizing s with
  | nil => rfl
  | cons slot slots ih =>
    let t : State := s.push (s.mem.load (L.slot slot))
    have one : (Instr.push (slotOperand slot)).outcome L s = some t := by
      show ((slotOperand slot).read L s).map s.push = _
      rw [slotOperand, Operand.read, Layout.address_slot r15]
      rfl
    rw [List.map_cons, outcomes, one]
    exact ih (s := t.goto (s.pc + 1)) r15

theorem exists_words_of_nodup (once : slots.Nodup) (count : ws.length = slots.length) :
    ∃ word : Nat → Word, slots.map word = ws := by
  induction slots generalizing ws with
  | nil => exact ⟨fun _ => 0, (List.eq_nil_of_length_eq_zero count).symm⟩
  | cons slot slots ih =>
    match ws, count with
    | w :: ws, count =>
      obtain ⟨new, once⟩ := List.nodup_cons.1 once
      obtain ⟨word, rfl⟩ := ih once (Nat.succ.inj count)
      refine ⟨fun other => if other = slot then w else word other, ?_⟩
      rw [List.map_cons, if_pos rfl]
      congr 1
      refine List.map_congr_left fun other mem => if_neg ?_
      rintro rfl
      exact new mem

/-- Words that are taken off the data stack go into slots, the one on top into the first of them,
and nothing else changes. -/
theorem State.restored_grown (fits : L.Fits limits extent) (holds : ∀ slot ∈ slots, L.Holds slot)
    (once : slots.Nodup) (count : taken.length = slots.length)
    (low : L.returnPointer ≤ (s.regs .rsp).toNat) (grown : base.Grown s (taken ++ rest)) :
    base.Grown (s.restored L slots) rest ∧ (s.restored L slots).mem.held L slots = taken
      ∧ ∀ x, L.Clear slots x → (s.restored L slots).mem x = s.mem x := by
  obtain ⟨word, rfl⟩ := exists_words_of_nodup once count
  have size := grown.rsp
  have high := (base.regs .rsp).isLt
  rw [List.length_append, List.length_map] at size
  obtain ⟨here, below⟩ := Memory.lie_append.1 grown.words
  rw [List.length_map] at below
  obtain ⟨moved, same, put⟩ := State.restored_words fits holds low (by omega) here
  have outer : ∀ x : Word, L.returnPointer ≤ x.toNat → (s.restored L slots).mem x = s.mem x :=
    fun x le => same x (Layout.clear_of_outside holds (.inr le))
  refine ⟨⟨by omega, ?_, ?_, ?_⟩, List.map_congr_left put, same⟩
  · rw [moved]
    exact below.congr (by omega) fun x le _ => outer x (by omega)
  · intro x le
    rw [outer x (by omega), grown.above x le]
  · rw [State.restored_regs (by decide), grown.r15]

/-- The words in slots are pushed, that in the last slot last, and nothing else changes. -/
theorem State.saved_grown (fits : L.Fits limits extent) (holds : ∀ slot ∈ slots, L.Holds slot)
    (room : L.returnStack + 8 * slots.length ≤ (s.regs .rsp).toNat) (grown : base.Grown s ws) :
    base.Grown (s.saved L slots) ((s.mem.held L slots).reverse ++ ws)
      ∧ ((s.saved L slots).regs .rsp).toNat + 8 * slots.length = (s.regs .rsp).toNat
      ∧ ∀ x : Word, x.toNat < ((s.saved L slots).regs .rsp).toNat ∨ (s.regs .rsp).toNat ≤ x.toNat →
        (s.saved L slots).mem x = s.mem x := by
  obtain ⟨moved, same, lie⟩ := State.saved_words fits holds room
  have size := grown.rsp
  have high := (base.regs .rsp).isLt
  have words : (s.mem.held L slots).reverse
      = slots.reverse.map fun slot => s.mem.load (L.slot slot) := List.map_reverse.symm
  have count : (s.mem.held L slots).reverse.length = slots.length := by
    rw [words, List.length_map, List.length_reverse]
  refine ⟨⟨?_, ?_, ?_, ?_⟩, moved, same⟩
  · rw [List.length_append, count]
    omega
  · rw [Memory.lie_append, count, words, moved]
    exact ⟨lie, grown.words.congr (by omega) fun x le _ => same x (.inr le)⟩
  · intro x le
    rw [same x (.inr (by omega)), grown.above x le]
  · rw [State.saved_regs (by decide), grown.r15]

end Asm

open Asm

/-! ## Pins that are bound together -/

theorem BindsAll.start_le {g : Globals} {byDefault : Ty} {s next : Supply} {ts : List Token}
    {pins : List Pin} (bound : BindsAll g byDefault s ts pins next) (some : pins ≠ []) :
    s.nextSlot ≤ s.book.capacity := by
  cases bound with
  | nil => exact absurd rfl some
  | cons first => exact Nat.le_of_add_right_le first.room

theorem BindsParams.start_le {s next : Supply} {params : List (String × Ty)} {pins : List Pin}
    (bound : BindsParams s params pins next) (some : pins ≠ []) : s.nextSlot ≤ s.book.capacity := by
  cases bound with
  | nil => exact absurd rfl some
  | cons room => exact Nat.le_of_add_right_le room

namespace Reader

/-- Pins that the second reading brings into scope together: the named inputs of a function, or the
names of a `bind`. -/
inductive Creates : Supply → List Pin → Prop where
  | inputs {s next : Supply} {place : Place} {params : List (String × Ty)} {pins : List Pin}
      (ok : bindParams s place params = .ok (pins, next)) : Creates s pins
  | names {g : Globals} {r read : Reader} {words : List Token} {pins : List Pin} {opener : Place}
      (phase : r.phase = .names [] opener) (kind : ∀ t ∈ words, t.kind = .word)
      (ok : run g r words = .ok read) (bound : read.phase = .names pins opener) :
      Creates r.supply pins

theorem bindsAll_of_run {g : Globals} {r read : Reader} {words : List Token} {pins : List Pin}
    {opener : Place} (phase : r.phase = .names pins opener) (kind : ∀ t ∈ words, t.kind = .word)
    (ok : run g r words = .ok read) :
    ∃ more, read.phase = .names (pins ++ more) opener
      ∧ BindsAll g .runtime r.supply words more read.supply := by
  induction words generalizing r pins with
  | nil =>
    cases ok
    exact ⟨[], by rw [phase, List.append_nil], .nil _⟩
  | cons t words ih =>
    obtain ⟨word, kind⟩ := List.forall_mem_cons.1 kind
    rw [run] at ok
    split at ok
    case h_2 => cases ok
    rename_i next here
    unfold step at here
    rw [phase] at here
    simp only [bindToken, word] at here
    split at here
    · rename_i p supply bound
      cases here
      obtain ⟨more, last, others⟩ := ih rfl kind ok
      refine ⟨p :: more, ?_, .cons (bindName_eq_ok.1 bound) others⟩
      rw [last, List.append_assoc]
      rfl
    · cases here

/-- Pins that are created together share no slot, and all their slots are in the buffer. -/
theorem Creates.slots {s : Supply} {pins : List Pin} (created : Creates s pins) :
    (pins.flatMap Pin.slots).Nodup ∧ ∀ slot ∈ pins.flatMap Pin.slots, slot < s.book.capacity := by
  have given : ∀ {next : Supply}, s.Gives pins next → (pins ≠ [] → s.nextSlot ≤ s.book.capacity) →
      (pins.flatMap Pin.slots).Nodup ∧ ∀ slot ∈ pins.flatMap Pin.slots, slot < s.book.capacity := by
    intro next gives start
    refine ⟨gives.slots.nodup_iff.2 List.nodup_range', fun slot mem => ?_⟩
    have some : pins ≠ [] := by
      rintro rfl
      cases mem
    have room := gives.room (start some)
    have among := List.mem_range'_1.1 (gives.slots.mem_iff.1 mem)
    omega
  cases created with
  | inputs ok =>
    have bound := bindsParams_of_eq_ok ok
    exact given bound.gives bound.start_le
  | names phase kind ok read =>
    obtain ⟨more, last, bound⟩ := bindsAll_of_run phase kind ok
    rw [read] at last
    cases last
    exact given bound.gives bound.start_le

theorem pinNodes_cons (p : Pin) (pins : List Pin) (place : Place) :
    pinNodes (p :: pins) place = pinNodes pins place ++ [.op (.pin p) place] := by
  simp [pinNodes]

theorem pinNodes_append (front back : List Pin) (place : Place) :
    pinNodes (front ++ back) place = pinNodes back place ++ pinNodes front place := by
  simp [pinNodes]

theorem instrsOf_pinNodes (pins : List Pin) (place : Place) :
    instrsOf (linesOf (pinNodes pins place))
      = (pins.flatMap Pin.slots).reverse.map fun slot => .pop (slotOperand slot) := by
  induction pins with
  | nil => rfl
  | cons p pins ih =>
    rw [pinNodes_cons, linesOf_append, instrsOf_append, ih, List.flatMap_cons, List.reverse_append,
      List.map_append]
    congr 1
    simp [linesOf, Node.lines, Op.code, Pin.storeCode]

theorem instrsOf_pinned (pins : List Pin) (place : Place) :
    instrsOf (linesOf (pins.map fun p => .op (.pinned p) place))
      = (pins.flatMap Pin.slots).map fun slot => .push (slotOperand slot) := by
  induction pins with
  | nil => rfl
  | cons p pins ih =>
    rw [List.map_cons, linesOf, instrsOf_append, ih, List.flatMap_cons, List.map_append]
    congr 1
    simp [Node.lines, Op.code, Pin.pushCode]

end Reader

/-! ## What verification checks -/

section Verification

variable {k after : Knowledge} {place : Place} {stack : List (Word × Cell)} {p : Pin}
  {pins : List Pin}

/-- A pin takes the value on top, of as many words as the pin has slots. -/
theorem Knowledge.exists_bound (ok : k.bindPin p place = .ok after)
    (types : k.shape.cells = stack.map Prod.snd) :
    ∃ value below, stack = value ++ below ∧ value.length = p.slots.length
      ∧ after.shape.cells = below.map Prod.snd := by
  have split : ∃ cells, k.shape.cells = cells ++ after.shape.cells := by
    cases runtime : p.ty.isRuntime with
    | false =>
      obtain ⟨rest, top, rfl⟩ := (bindPin_eq_ok runtime).1 ok
      obtain ⟨cells, eq, -⟩ := Shape.dropValue_eq_ok.1 top
      exact ⟨cells, eq⟩
    | true =>
      obtain ⟨c, rest, eq, -, rfl⟩ := (bindPin_runtime_eq_ok (Ty.isRuntime_iff.1 runtime)).1 ok
      exact ⟨[c], eq⟩
  obtain ⟨cells, eq⟩ := split
  obtain ⟨value, below, rfl, same, left⟩ := List.map_eq_append_iff.1 (types.symm.trans eq)
  refine ⟨value, below, rfl, ?_, left.symm⟩
  have size := Knowledge.size_bindPin ok
  have count := congrArg List.length same
  have whole := congrArg List.length eq
  simp only [Shape.size, List.length_append, List.length_map] at size count whole
  rw [Pin.length_slots]
  omega

/-- Pins take values off the top, of as many words as they have slots. -/
theorem Reader.exists_taken (ok : verifyAll (pinNodes pins place) k = .ok after)
    (types : k.shape.cells = stack.map Prod.snd) :
    ∃ taken rest, stack = taken ++ rest ∧ taken.length = (pins.flatMap Pin.slots).length
      ∧ after.shape.cells = rest.map Prod.snd := by
  induction pins generalizing after with
  | nil =>
    cases ok
    exact ⟨[], stack, rfl, rfl, types⟩
  | cons p pins ih =>
    rw [pinNodes_cons] at ok
    obtain ⟨before, others, last⟩ := verifyAll_append_eq_ok.1 ok
    rw [verifyAll_singleton] at last
    obtain ⟨taken, rest, rfl, count, left⟩ := ih others
    obtain ⟨value, below, rfl, width, left⟩ := Knowledge.exists_bound last left
    refine ⟨taken ++ value, below, by simp, ?_, left⟩
    rw [List.flatMap_cons, List.length_append, List.length_append, count, width, Nat.add_comm]

/-- The value of one of the pins lies below those of the later pins and above those of the earlier
ones. -/
theorem Reader.exists_value {front back : List Pin}
    (ok : verifyAll (pinNodes (front ++ p :: back) place) k = .ok after)
    (types : k.shape.cells = stack.map Prod.snd) :
    ∃ before next above value between rest, stack = above ++ (value ++ (between ++ rest))
      ∧ verifyAll (pinNodes back place) k = .ok before
      ∧ before.shape.cells = (value ++ (between ++ rest)).map Prod.snd
      ∧ before.bindPin p place = .ok next ∧ next.shape.cells = (between ++ rest).map Prod.snd
      ∧ above.length = (back.flatMap Pin.slots).length ∧ value.length = p.slots.length
      ∧ between.length = (front.flatMap Pin.slots).length := by
  rw [pinNodes_append, pinNodes_cons] at ok
  obtain ⟨next, later, earlier⟩ := verifyAll_append_eq_ok.1 ok
  obtain ⟨before, others, own⟩ := verifyAll_append_eq_ok.1 later
  rw [verifyAll_singleton] at own
  obtain ⟨above, left, rfl, behind, cells⟩ := exists_taken others types
  obtain ⟨value, below, rfl, width, cells'⟩ := Knowledge.exists_bound own cells
  obtain ⟨between, rest, rfl, ahead, -⟩ := exists_taken earlier cells'
  exact ⟨before, next, above, value, between, rest, rfl, others, cells, own, cells', behind, width,
    ahead⟩

end Verification

/-! ## Code that binds, reads and updates pins -/

/-- The code that reads a pin pushes the words in its slots, the first one first, and changes no
slot. -/
def Pin.Reads (M : Image) (p : Pin) : Prop :=
  ∀ (base u : State) (calls : List Asm.Frame) (ws : List Word), base.Grown u ws →
    u.regs .r15 = BitVec.ofNat 64 M.layout.pins →
    M.layout.dataStack + 8 * p.ty.width ≤ (u.regs .rsp).toNat → M.Holds u.pc (Op.pinned p).code →
      ∃ v, M.Straight ⟨u, calls⟩ ⟨v, calls⟩ ∧ v.pc = u.pc + (Op.pinned p).code.length
        ∧ base.Grown v ((u.mem.held M.layout p.slots).reverse ++ ws)
        ∧ ∀ slot, M.layout.Holds slot →
          v.mem.load (M.layout.slot slot) = u.mem.load (M.layout.slot slot)

/-- The code that updates a pin takes a value off the stack into its slots, and changes no byte
outside of them. -/
def Pin.Updates (M : Image) (p : Pin) : Prop :=
  ∀ (base u : State) (calls : List Asm.Frame) (value ws : List Word), base.Grown u (value ++ ws) →
    value.length = p.ty.width → u.regs .r15 = BitVec.ofNat 64 M.layout.pins →
    M.layout.dataStack ≤ (u.regs .rsp).toNat → M.Holds u.pc (Op.update p).code →
      ∃ v, M.Straight ⟨u, calls⟩ ⟨v, calls⟩ ∧ v.pc = u.pc + (Op.update p).code.length
        ∧ base.Grown v ws ∧ v.mem.held M.layout p.slots = value.reverse
        ∧ ∀ x, M.layout.Clear p.slots x → v.mem x = u.mem x

section Runs

variable {M : Image} {limits : Limits} {extent : Nat} {base s : State} {p : Pin} {slots : List Nat}
  {taken rest : List Word}

/-- Slots are read from the first to the last. -/
theorem Asm.Image.Holds.pushes (fits : M.layout.Fits limits extent)
    (inside : ∀ slot ∈ slots, M.layout.Holds slot)
    (r15 : s.regs .r15 = BitVec.ofNat 64 M.layout.pins)
    (room : M.layout.returnStack + 8 * slots.length ≤ (s.regs .rsp).toNat)
    (grown : base.Grown s rest)
    (holds : M.Holds s.pc (slots.map fun slot => .push (slotOperand slot)))
    (calls : List Asm.Frame) :
    ∃ t, M.Straight ⟨s, calls⟩ ⟨t, calls⟩ ∧ t.pc = s.pc + slots.length
      ∧ base.Grown t ((s.mem.held M.layout slots).reverse ++ rest)
      ∧ ∀ slot, M.layout.Holds slot →
        t.mem.load (M.layout.slot slot) = s.mem.load (M.layout.slot slot) := by
  obtain ⟨grown, moved, same⟩ := State.saved_grown fits inside room grown
  have bounds := fits.returnPointer_lt
  refine ⟨_, holds.straight (outcomes_pushes r15 slots), State.saved_pc .., grown, ?_⟩
  intro slot there
  exact fits.load_slot (fun x _ less => same x (.inl (by omega))) there

/-- Words are taken into slots from the last to the first. -/
theorem Asm.Image.Holds.pops (fits : M.layout.Fits limits extent)
    (inside : ∀ slot ∈ slots, M.layout.Holds slot) (once : slots.Nodup)
    (r15 : s.regs .r15 = BitVec.ofNat 64 M.layout.pins) (count : taken.length = slots.length)
    (low : M.layout.returnPointer ≤ (s.regs .rsp).toNat) (grown : base.Grown s (taken ++ rest))
    (holds : M.Holds s.pc (slots.reverse.map fun slot => .pop (slotOperand slot)))
    (calls : List Asm.Frame) :
    ∃ t, M.Straight ⟨s, calls⟩ ⟨t, calls⟩ ∧ t.pc = s.pc + slots.length ∧ base.Grown t rest
      ∧ t.mem.held M.layout slots = taken.reverse
      ∧ ∀ x, M.layout.Clear slots x → t.mem x = s.mem x := by
  obtain ⟨grown, words, same⟩ := State.restored_grown fits
    (fun slot mem => inside slot (List.mem_reverse.1 mem)) (List.nodup_reverse.2 once)
    (count.trans List.length_reverse.symm) low grown
  refine ⟨_, holds.straight (outcomes_pops r15 _), ?_, grown, ?_, fun x clear => same x ?_⟩
  · rw [State.restored_pc, List.length_reverse]
  · rw [← words, Memory.held, Memory.held, List.map_reverse, List.reverse_reverse]
  · exact fun slot mem => clear slot (List.mem_reverse.1 mem)

theorem Pin.reads (fits : M.layout.Fits limits extent)
    (inside : ∀ slot ∈ p.slots, M.layout.Holds slot) : p.Reads M := by
  intro base u calls ws grown r15 data holds
  have gap := fits.gap
  have bounds := fits.returnPointer_lt
  have room : M.layout.returnStack + 8 * p.slots.length ≤ (u.regs .rsp).toNat := by
    rw [p.length_slots]
    omega
  obtain ⟨v, straight, pc, grown, same⟩ := holds.pushes fits inside r15 room grown calls
  refine ⟨v, straight, ?_, grown, same⟩
  rw [pc, Op.code, Pin.pushCode, List.length_map]

theorem Pin.updates (fits : M.layout.Fits limits extent)
    (inside : ∀ slot ∈ p.slots, M.layout.Holds slot) : p.Updates M := by
  intro base u calls value ws grown width r15 data holds
  have gap := fits.gap
  have bounds := fits.returnPointer_lt
  have once : p.slots.Nodup := List.nodup_range'
  obtain ⟨v, straight, pc, grown, words, same⟩ := holds.pops fits inside once r15
    (width.trans p.length_slots.symm) (by omega) grown calls
  refine ⟨v, straight, ?_, grown, words, same⟩
  rw [pc, Op.code, Pin.storeCode, List.length_map, List.length_reverse]

/-- **Values go through pins word by word.** Whatever pins a `bind` or a signature creates, whatever
words lie on the data stack under types that verification lets them be bound to,
* the code that binds them puts the words of each value into the slots of its pin and changes no
  other byte,
* reading one of them pushes the words in its slots and changes no slot, and updating it changes its
  own slots only, and
* reading all of them in the order of their names rebuilds the stack. -/
theorem Reader.Creates.keeps_values {supply : Supply} {pins : List Pin} {place : Place}
    {k after : Knowledge} {stack : List (Word × Cell)} (created : Creates supply pins)
    (capacity : supply.book.capacity = limits.pinCapacity) (fits : M.layout.Fits limits extent)
    (verified : verifyAll (pinNodes pins place) k = .ok after)
    (types : k.shape.cells = stack.map Prod.snd) (grown : base.Grown s (stack.map Prod.fst))
    (r15 : s.regs .r15 = BitVec.ofNat 64 M.layout.pins)
    (data : M.layout.dataStack ≤ (s.regs .rsp).toNat)
    (holds : M.Holds s.pc (instrsOf (linesOf (pinNodes pins place)))) (calls : List Asm.Frame) :
    ∃ (t : State) (rest : List (Word × Cell)),
      M.Straight ⟨s, calls⟩ ⟨t, calls⟩ ∧ t.pc = s.pc + extentOf (pinNodes pins place)
      ∧ base.Grown t (rest.map Prod.fst) ∧ after.shape.cells = rest.map Prod.snd
      ∧ (∀ x, M.layout.Clear (pins.flatMap Pin.slots) x → t.mem x = s.mem x)
      ∧ (∀ front p back, pins = front ++ p :: back → ∃ before next above value below,
          stack = above ++ value ++ below
          ∧ verifyAll (pinNodes back place) k = .ok before
          ∧ before.shape.cells = (value ++ below).map Prod.snd
          ∧ before.bindPin p place = .ok next ∧ next.shape.cells = below.map Prod.snd
          ∧ t.mem.held M.layout p.slots = (value.map Prod.fst).reverse)
      ∧ pins.Pairwise (fun p q => p.slots.Disjoint q.slots)
      ∧ (∀ p ∈ pins, p.Reads M ∧ p.Updates M)
      ∧ ∀ (u : State) (calls : List Asm.Frame), base.Grown u (rest.map Prod.fst) →
          u.mem.held M.layout (pins.flatMap Pin.slots)
            = t.mem.held M.layout (pins.flatMap Pin.slots) →
          M.Holds u.pc (instrsOf (linesOf (pins.map fun p => .op (.pinned p) place))) →
            ∃ v, M.Straight ⟨u, calls⟩ ⟨v, calls⟩ ∧ base.Grown v (stack.map Prod.fst) := by
  obtain ⟨once, below⟩ := created.slots
  have inside : ∀ slot ∈ pins.flatMap Pin.slots, M.layout.Holds slot := fun slot mem =>
    fits.holds (capacity ▸ below slot mem)
  have gap := fits.gap
  have bounds := fits.returnPointer_lt
  obtain ⟨taken, rest, rfl, count, left⟩ := exists_taken verified types
  rw [List.map_append] at grown
  rw [instrsOf_pinNodes] at holds
  obtain ⟨t, straight, pc, grown', words, same⟩ := holds.pops fits inside once r15
    (by rw [List.length_map, count]) (by omega) grown calls
  refine ⟨t, rest, straight, ?_, grown', left, same, ?_, (List.nodup_flatMap.1 once).2, ?_, ?_⟩
  · rw [pc, extentOf, instrsOf_pinNodes, List.length_map, List.length_reverse]
  · intro front p back eq
    subst eq
    obtain ⟨before, next, above, value, between, rest', eq, later, cells, bound, cells', high,
      width, low⟩ := exists_value verified types
    refine ⟨before, next, above, value, between ++ rest', by rw [eq, List.append_assoc], later,
      cells, bound, cells', ?_⟩
    have split : taken ++ rest = above ++ (value ++ between) ++ rest' := eq.trans (by simp)
    have whole : taken = above ++ (value ++ between) := by
      refine List.append_inj_left split ?_
      simp only [List.flatMap_append, List.flatMap_cons, List.length_append] at count ⊢
      omega
    rw [whole, List.flatMap_append, List.flatMap_cons] at words
    simp only [Memory.held, List.map_append, List.reverse_append, List.append_assoc] at words
    have behind := List.append_inj_right words (by simp [low])
    rw [Memory.held]
    exact List.append_inj_left behind (by simp [width])
  · intro p mem
    have own : ∀ slot ∈ p.slots, M.layout.Holds slot := fun slot here =>
      inside slot (List.mem_flatMap.2 ⟨p, mem, here⟩)
    exact ⟨Pin.reads fits own, Pin.updates fits own⟩
  · intro u calls grownU held code
    rw [instrsOf_pinned] at code
    have u15 : u.regs .r15 = BitVec.ofNat 64 M.layout.pins := by rw [grownU.r15, ← grown.r15, r15]
    have room :
        M.layout.returnStack + 8 * (pins.flatMap Pin.slots).length ≤ (u.regs .rsp).toNat := by
      have before := grown.rsp
      have now := grownU.rsp
      rw [List.length_append, List.length_map, count] at before
      omega
    obtain ⟨v, straight, -, rebuilt, -⟩ := code.pushes fits inside u15 room grownU calls
    refine ⟨v, straight, ?_⟩
    rw [held, words, List.reverse_reverse, ← List.map_append] at rebuilt
    exact rebuilt

end Runs

/-! ## A string and a number -/

/-- The pins of `bind s:str n`. -/
def stringAndNumber : List Pin := [⟨"s", .str, 0⟩, ⟨"n", .runtime, 2⟩]

theorem creates_stringAndNumber : Reader.Creates (.ofLimits {}) stringAndNumber := by
  have kind : ∀ t ∈ ([⟨.word, "s:str", ⟨1, 6, "t"⟩⟩, ⟨.word, "n", ⟨1, 12, "t"⟩⟩] : List Token),
      t.kind = .word := by simp
  exact .names (g := .initial)
    (r := { Reader.start (.start {}) with phase := .names [] ⟨1, 1, "t"⟩ }) rfl kind rfl rfl

/-- Below a string of five bytes at address 300000 and the number 7. -/
def belowString : State where
  regs r :=
    match r with
    | .rsp => 200024
    | .r15 => 4096
    | _ => 0
  flags := none
  mem _ := 0
  pc := 0

/-- The words of the string and the number, with their types. -/
def stringBelowNumber : List (Word × Cell) :=
  [(7, ⟨.number, ⟨2, 5, "t"⟩⟩), (300000, ⟨.pointer, ⟨2, 1, "t"⟩⟩), (5, ⟨.number, ⟨2, 1, "t"⟩⟩)]

/-- The string is in the first two slots, its length first, and the number in the third. -/
theorem keeps_values_stringAndNumber :
    ∃ t, (Constant.alone
          (instrsOf (linesOf (Reader.pinNodes stringAndNumber ⟨1, 1, "t"⟩)))).Straight
        ⟨((belowString.push 5).push 300000).push 7, []⟩ ⟨t, []⟩
      ∧ t.mem.held .usual [0, 1] = [5, 300000] ∧ t.mem.held .usual [2] = [7] := by
  have grown : belowString.Grown (((belowString.push 5).push 300000).push 7)
      (stringBelowNumber.map Prod.fst) := by
    have first := (State.Grown.refl belowString).push (w := 5) (by decide) ⟨rfl, rfl, rfl⟩
    have second := first.push (w := 300000) (by decide) ⟨rfl, rfl, rfl⟩
    exact second.push (by decide) ⟨rfl, rfl, rfl⟩
  have verified : verifyAll (Reader.pinNodes stringAndNumber ⟨1, 1, "t"⟩)
      ⟨⟨stringBelowNumber.map Prod.snd⟩, .empty⟩ = .ok ⟨⟨[]⟩, ⟨[("n", .number)]⟩⟩ := rfl
  obtain ⟨t, rest, straight, -, -, -, -, values, -⟩ := creates_stringAndNumber.keeps_values
    rfl (Layout.fits_usual (Nat.zero_le _)) verified rfl grown rfl (by decide)
    (Constant.holds_alone _) []
  refine ⟨t, straight, ?_, ?_⟩
  · obtain ⟨before, next, above, value, below, split, later, cells, bound, left, held⟩ :=
      values [] ⟨"s", .str, 0⟩ [⟨"n", .runtime, 2⟩] rfl
    cases later
    cases bound
    obtain rfl : below = [] := List.map_eq_nil_iff.1 left.symm
    rw [List.append_nil] at split cells
    have width : value.length = 2 := by simpa using (congrArg List.length cells).symm
    have split : stringBelowNumber.take 1 ++ stringBelowNumber.drop 1 = above ++ value := split
    obtain ⟨-, rfl⟩ := List.append_inj' split width.symm
    exact held
  · obtain ⟨before, next, above, value, below, split, later, cells, bound, left, held⟩ :=
      values [⟨"s", .str, 0⟩] ⟨"n", .runtime, 2⟩ [] rfl
    cases later
    cases bound
    have height : below.length = 2 := by simpa using (congrArg List.length left).symm
    have whole : 3 = ((value ++ below).map Prod.snd).length := congrArg List.length cells
    rw [List.length_map, List.length_append, height] at whole
    have width : value.length = 1 := by omega
    have split : stringBelowNumber.take 1 ++ stringBelowNumber.drop 1 = above ++ value ++ below :=
      split
    have first : [] ++ stringBelowNumber.take 1 = above ++ value :=
      (List.append_inj' split height.symm).1
    obtain ⟨-, rfl⟩ := List.append_inj' first width.symm
    exact held

end PinnedStack
