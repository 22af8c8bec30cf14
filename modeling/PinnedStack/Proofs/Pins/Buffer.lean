import PinnedStack.Proofs.Pins.Slots
import PinnedStack.Proofs.Typing.Rules

/-!
# Pins in the emitted code

* `Operand.mem?` — the address that an operand leads to.
* `Program.uses_subset`, `Program.nodup_pins` — a body refers to pins of its own, and no pin is bound
  twice.
* `Program.offset_le` — an address in the pin buffer that the code of a program names is inside it.
* `Program.pins_lexical` — pins have lexical scope and slots of their own.
-/

namespace PinnedStack

open Asm

/-- The address that an operand leads to. -/
def Asm.Operand.mem? : Operand → Option Mem
  | mem m => some m
  | qword m => some m
  | byte m => some m
  | _ => none

theorem Asm.Operand.base_ne_of_isPlain {o : Operand} {base : Reg} {n : Nat}
    (plain : o.isPlain = true)
    (address : o.mem? = some (.offset base n)) : base ≠ .r15 := by
  cases o with
  | mem m | qword m | byte m =>
    cases address
    simpa [Operand.isPlain, Mem.isPlain] using plain
  | _ => cases address

theorem Scoped.width_pos {callees : List Call} {scope : List Pin} {first stop : Nat}
    {nodes : List Node} (h : Scoped callees scope first stop nodes) :
    ∀ p ∈ bindersOf nodes, 0 < p.ty.width := by
  induction h with
  | nil => simp
  | append _ _ left right =>
    rw [bindersOf_append]
    exact fun p mem => (List.mem_append.1 mem).elim (left p) (right p)
  | op fits =>
    rename_i operation place
    have none : (Node.op operation place).binder? = none := by
      cases operation <;> first | rfl | cases fits
    simp [bindersOf, nodesIn, Node.within, none]
  | call => simp [bindersOf, nodesIn, Node.within, Node.binder?, List.filterMap_cons]
  | ifTrue _ inner => simpa using inner
  | ifFalse _ inner => simpa using inner
  | ifElse _ _ left right =>
    simp only [bindersOf_ifElse, bindersOf_nil, List.append_nil]
    exact fun p mem => (List.mem_append.1 mem).elim (left p) (right p)
  | loop sound _ _ left right =>
    simp only [bindersOf_loop, bindersOf_nil, List.append_nil]
    refine List.forall_mem_cons.2 ⟨sound.width_pos, ?_⟩
    exact fun p mem => (List.mem_append.1 mem).elim (left p) (right p)
  | bind fits _ _ inner =>
    simp only [bindersOf_append, bindersOf_pinNodes, bindersOf_unpinNodes, List.append_nil]
    intro p mem
    rcases List.mem_append.1 mem with mem | mem
    · exact (fits p (List.mem_reverse.1 mem)).width_pos
    · exact inner p mem

namespace Program

variable {limits : Limits} {text : Scanned} {p : Program} {tables : Tables}

theorem uses_subset (ok : Program.ofTokens limits text = .ok (p, tables)) :
    ∀ f ∈ p.bodies, ∀ pin ∈ usesOf f.body, pin ∈ bindersOf f.body := by
  obtain ⟨survey, items, last, first, -, elaborates, -⟩ := elaborates_of_ofTokens ok
  have book := Survey.run_book (Survey.ofTokens_eq_ok first).1
  obtain ⟨functions, main⟩ := (elaborates.lexical (congrArg PinBook.live book)).mem_of_mem_usesOf
  intro f mem
  rcases List.mem_append.1 mem with mem | mem
  · exact functions f mem
  · exact List.mem_singleton.1 mem ▸ main

/-- **No pin is bound twice.** -/
theorem nodup_pins (ok : Program.ofTokens limits text = .ok (p, tables)) : p.pins.Nodup := by
  have positive : ∀ pin ∈ p.pins, 0 < pin.ty.width := by
    intro pin mem
    obtain ⟨f, body, mem⟩ := List.mem_flatMap.1 mem
    obtain ⟨_, _, inner⟩ := (formed_of_ofTokens ok).scoped f body
    exact inner.width_pos pin mem
  -- Two equal pins would share their first slot.
  refine (List.nodup_flatMap.1 (nodup_slots ok)).2.imp_of_mem fun {a b} mem _ apart same => ?_
  have first : a.slot ∈ a.slots := Pin.mem_slots.2 ⟨Nat.le_refl _, by have := positive a mem; omega⟩
  exact apart first (same ▸ first)

/-- **The code of a program names no address behind the pin buffer.** -/
theorem offset_le (ok : Program.ofTokens limits text = .ok (p, tables)) {line : Line} {o : Operand}
    {n : Nat} (mem : line ∈ p.lines tables limits) (operand : o ∈ line.operands)
    (address : o.mem? = some (.offset .r15 n)) :
    n + wordBytes ≤ limits.pinCapacity * wordBytes := by
  have fits : ∀ {slot}, slot < limits.pinCapacity → o = slotOperand slot →
      n + wordBytes ≤ limits.pinCapacity * wordBytes := by
    rintro slot bound rfl
    cases address
    rw [← Nat.succ_mul]
    exact Nat.mul_le_mul_right _ bound
  have apart : o.isPlain ≠ true := fun plain => Operand.base_ne_of_isPlain plain address rfl
  cases mentions_of_mem_lines mem operand with
  | plain plain => exact absurd plain apart
  | pointer eq =>
    subst eq
    cases address
  | start mem => rcases List.mem_pair.1 mem with rfl | rfl <;> cases address
  | @node f node body inside uses =>
    rcases uses with plain | ⟨pin, here, slot, own, eq⟩ | ⟨l, -, rfl⟩
    · exact absurd plain apart
    · have bound : pin ∈ bindersOf f.body := by
        rcases Option.or_eq_some_iff.1 here with binder | ⟨-, use⟩
        · exact List.mem_filterMap.2 ⟨node, inside, binder⟩
        · exact uses_subset ok f body pin (List.mem_filterMap.2 ⟨node, inside, use⟩)
      exact fits (slot_lt ok (List.mem_flatMap.2 ⟨f, body, bound⟩) own) eq
    · cases address
  | @saved f slot known own eq =>
    obtain ⟨count, room, -, ends⟩ := exists_slots ok
    have range := List.mem_range'_1.1 own
    have := ends f known
    exact fits (by omega) eq

/-- **Pins have lexical scope and slots of their own.** The functions and the main code are what the
items of the text stand for where the pins in scope are those of the blocks around. A body refers to
pins of its own only. No pin is bound twice, no slot belongs to two pins, and all are in the buffer.
So the code names no address behind the buffer, which the program reserves. -/
theorem pins_lexical {source file : String}
    (ok : Program.ofText limits source file = .ok (p, tables)) :
    (∃ text survey items, Scanned.ofText source file = .ok text
        ∧ Survey.ofTokens limits text = .ok survey ∧ text.tokens = items.flatMap Item.spell
        ∧ LexicalAll survey.globals survey.heads items p.functions p.main.body)
      ∧ (∀ f ∈ p.bodies, ∀ pin ∈ usesOf f.body, pin ∈ bindersOf f.body)
      ∧ p.pins.Nodup ∧ (p.pins.flatMap Pin.slots).Nodup
      ∧ (∀ pin ∈ p.pins, ∀ slot ∈ pin.slots, slot < limits.pinCapacity)
      ∧ (∀ line ∈ p.lines tables limits, ∀ o ∈ line.operands, ∀ n,
        o.mem? = some (.offset .r15 n) → n + wordBytes ≤ limits.pinCapacity * wordBytes)
      ∧ .reserve "pins" .words (max limits.pinCapacity 1) none ∈ p.lines tables limits := by
  obtain ⟨text, lexed, spelled⟩ := ofText_eq_ok ok
  refine ⟨?_, uses_subset spelled, nodup_pins spelled, nodup_slots spelled,
    fun pin mem slot own => slot_lt spelled mem own,
    fun line mem o operand n address => offset_le spelled mem operand address, ?_⟩
  · obtain ⟨survey, items, last, first, tokens, elaborates, -⟩ := elaborates_of_ofTokens spelled
    have book := Survey.run_book (Survey.ofTokens_eq_ok first).1
    exact ⟨text, survey, items, lexed, first, tokens,
      elaborates.lexical (congrArg PinBook.live book)⟩
  · exact List.mem_append_right _ (List.mem_append_left _ (by simp))

end Program

/-- A pin hidden by a loop inside its function, and a name bound twice by one `bind`. -/
def hiddenPins : String :=
  ": f ( x:Number -- Number ) bind y in x loop x x do x ; y ; ; 1 2 bind a a in a ;"

/-- The words refer to the innermost pins, by their slots; the code stays inside a buffer of five
words. -/
theorem pins_lexical_hiddenPins :
    ∃ p tables, Program.ofText ⟨5, 64⟩ hiddenPins "t" = .ok (p, tables)
      ∧ p.bodies.map (fun f => (usesOf f.body).map (·.slot)) = [[0, 2, 2, 1], [4]]
      ∧ p.pins.Nodup
      ∧ ∀ line ∈ p.lines tables ⟨5, 64⟩, ∀ o ∈ line.operands, ∀ n,
        o.mem? = some (.offset .r15 n) → n + 8 ≤ 40 := by
  obtain ⟨p, tables, spelled, holds⟩ := Except.exists_eq_ok
    (x := Program.ofText ⟨5, 64⟩ hiddenPins "t")
    (q := fun r => r.1.bodies.map (fun f => (usesOf f.body).map (·.slot)) == [[0, 2, 2, 1], [4]])
    (by decide +kernel)
  obtain ⟨-, -, pins, -, -, inside, -⟩ := Program.pins_lexical spelled
  exact ⟨p, tables, spelled, beq_iff_eq.1 holds, pins, inside⟩

end PinnedStack
