import PinnedStack.Proofs.Pins.Lexical

/-!
# Pins do not share slots

* `Supply.Gives` — between two points of the reading exactly the slots of some pins are handed out.
* `Builds.gives`, `Elaborates.gives` — those of the pins that statements and items bind.
* `Program.pins` — the pins that a program binds. `Program.nodup_slots`, `Program.slot_lt` — each slot
  belongs to one of them at most, and all are in the buffer.
-/

namespace PinnedStack

/-! ## What is handed out -/

/-- Between two points exactly the slots of the given pins are handed out. -/
structure Supply.Gives (s : Supply) (pins : List Pin) (next : Supply) : Prop where
  le : s.nextSlot ≤ next.nextSlot
  slots : (pins.flatMap Pin.slots).Perm (List.range' s.nextSlot (next.nextSlot - s.nextSlot))
  capacity : next.book.capacity = s.book.capacity
  room : s.nextSlot ≤ s.book.capacity → next.nextSlot ≤ s.book.capacity

namespace Supply.Gives

variable {s middle next : Supply} {ps qs : List Pin}

theorem of_book_eq (eq : next.book = s.book) : s.Gives [] next := by
  have same : next.nextSlot = s.nextSlot := congrArg PinBook.nextSlot eq
  exact ⟨Nat.le_of_eq same.symm, by simp [same], by rw [eq], fun room => same.symm ▸ room⟩

theorem append (first : s.Gives ps middle) (second : middle.Gives qs next) :
    s.Gives (ps ++ qs) next where
  le := Nat.le_trans first.le second.le
  slots := by
    rw [List.flatMap_append]
    refine (first.slots.append second.slots).trans (.of_eq ?_)
    have start : middle.nextSlot = s.nextSlot + (middle.nextSlot - s.nextSlot) := by
      have := first.le
      omega
    have total : middle.nextSlot - s.nextSlot + (next.nextSlot - middle.nextSlot)
        = next.nextSlot - s.nextSlot := by
      have := first.le
      have := second.le
      omega
    rw [← total, ← List.range'_append_1, ← start]
  capacity := second.capacity.trans first.capacity
  room := fun room => first.capacity ▸ second.room (first.capacity.symm ▸ first.room room)

theorem perm (h : s.Gives ps next) (perm : ps.Perm qs) : s.Gives qs next :=
  ⟨h.le, (perm.symm.flatMap_right _).trans h.slots, h.capacity, h.room⟩

theorem leave (h : s.Gives ps next) (scope : List Pin) : s.Gives ps (next.leave scope) :=
  ⟨h.le, h.slots, h.capacity, h.room⟩

theorem of_label (h : s.label.2.Gives ps next) : s.Gives ps next :=
  ⟨h.le, h.slots, h.capacity, h.room⟩

theorem enter {p : Pin} (slot : p.slot = s.nextSlot)
    (room : s.nextSlot + p.ty.width ≤ s.book.capacity) :
    s.Gives [p] (s.enter p) := by
  have next : (s.enter p).nextSlot = s.nextSlot + p.ty.width := rfl
  refine ⟨next ▸ Nat.le_add_right .., ?_, rfl, fun _ => next ▸ room⟩
  rw [next, Nat.add_sub_cancel_left, List.flatMap_singleton, Pin.slots, slot]

end Supply.Gives

section Read

variable {g : Globals} {s next : Supply} {byDefault : Ty} {pins : List Pin}

theorem Binds.gives {t : Token} {p : Pin} (h : Binds g s t byDefault p next) : s.Gives [p] next :=
  h.next ▸ .enter h.slot h.room

theorem BindsAll.gives {ts : List Token} (h : BindsAll g byDefault s ts pins next) :
    s.Gives pins next := by
  induction h with
  | nil => exact .of_book_eq rfl
  | cons first _ ih => exact first.gives.append ih

theorem BindsParams.gives {params : List (String × Ty)} (h : BindsParams s params pins next) :
    s.Gives pins next := by
  induction h with
  | nil => exact .of_book_eq rfl
  | cons room _ ih => exact (Supply.Gives.enter rfl room).append ih

/-- **Statements are handed exactly the slots of the pins that they bind.** -/
theorem Builds.gives {ss : List Statement} {nodes : List Node} (h : Builds g s ss nodes next) :
    s.Gives (bindersOf nodes) next := by
  induction h with
  | nil => exact .of_book_eq rfl
  | atom here _ ih =>
    rw [here.denotes.bindersOf_cons]
    exact (Supply.Gives.of_book_eq here.book_eq).append ih
  | ifThen _ _ ihInner ihAfter =>
    rw [bindersOf_ifTrue]
    exact ihInner.of_label.append ihAfter
  | ifNo _ _ _ ihLeft ihRight ihAfter =>
    exact bindersOf_branchNode _ _ _ [] _ ▸ (ihLeft.of_label.append ihRight).append ihAfter
  | ifBoth _ _ _ ihLeft ihRight ihAfter =>
    exact bindersOf_branchNode _ _ _ (_ :: _) _ ▸ (ihLeft.of_label.append ihRight).append ihAfter
  | loop bound _ _ _ ihLeft ihRight ihAfter =>
    rw [bindersOf_loop]
    have block := bound.gives.append (ihLeft.of_label.append ihRight)
    exact (block.leave _).append ihAfter
  | bind bound _ _ ihWithin ihAfter =>
    simp only [bindersOf_append, bindersOf_pinNodes, bindersOf_unpinNodes, List.append_nil]
    have bound := bound.gives.perm (List.reverse_perm _).symm
    exact ((bound.append ihWithin).leave _).append ihAfter

/-- **Items are handed exactly the slots of the pins that they bind.** -/
theorem Elaborates.gives {heads : List Head} {items : List Item} {fs : List Func} {main : List Node}
    (h : Elaborates g s heads items fs main next) :
    s.Gives (fs.flatMap (fun f => bindersOf f.body) ++ bindersOf main) next := by
  induction h with
  | nil => exact .of_book_eq rfl
  | statement built _ ih =>
    refine (built.gives.append ih).perm ?_
    rw [bindersOf_append, ← List.append_assoc, ← List.append_assoc]
    exact List.perm_append_comm.append_right _
  | stray _ ih => exact ih
  | plain _ ih => exact ih
  | function bound built _ ih =>
    simp only [List.flatMap_cons, Head.func, bindersOf_append, bindersOf_pinNodes,
      bindersOf_unpinNodes, List.append_nil, List.append_assoc]
    have bound := bound.gives.perm (List.reverse_perm _).symm
    rw [← List.append_assoc]
    exact ((bound.append built.gives).leave _).append ih

/-- The slots that functions save have been handed out. -/
theorem Elaborates.endSlot_le {heads : List Head} {items : List Item} {fs : List Func}
    {main : List Node} (h : Elaborates g s heads items fs main next) :
    ∀ f ∈ fs, f.endSlot ≤ next.nextSlot := by
  induction h with
  | nil => simp
  | statement _ _ ih => exact ih
  | stray _ ih => exact ih
  | plain _ ih => exact ih
  | function _ _ after ih => exact List.forall_mem_cons.2 ⟨after.gives.le, ih⟩

end Read

/-! ## Programs -/

def Program.pins (p : Program) : List Pin := p.bodies.flatMap fun f => bindersOf f.body

section Programs

variable {limits : Limits} {text : Scanned} {p : Program} {tables : Tables}

/-- A program is handed exactly the slots of its pins, from the first one on. -/
theorem Program.exists_slots (ok : Program.ofTokens limits text = .ok (p, tables)) :
    ∃ count ≤ limits.pinCapacity, (p.pins.flatMap Pin.slots).Perm (List.range count)
      ∧ ∀ f ∈ p.functions, f.endSlot ≤ count := by
  obtain ⟨survey, items, last, first, -, elaborates, -⟩ := elaborates_of_ofTokens ok
  have book : survey.supply.book = .empty limits.pinCapacity :=
    Survey.run_book (Survey.ofTokens_eq_ok first).1
  have start : survey.supply.nextSlot = 0 := congrArg PinBook.nextSlot book
  have capacity : survey.supply.book.capacity = limits.pinCapacity :=
    congrArg PinBook.capacity book
  have gives := elaborates.gives
  have room := gives.room (by simp [start])
  refine ⟨last.nextSlot, capacity ▸ room, ?_, elaborates.endSlot_le⟩
  have slots := gives.slots
  rw [start, Nat.sub_zero, ← List.range_eq_range'] at slots
  simpa [Program.pins, Program.bodies] using slots

/-- **No slot belongs to two pins.** -/
theorem Program.nodup_slots (ok : Program.ofTokens limits text = .ok (p, tables)) :
    (p.pins.flatMap Pin.slots).Nodup := by
  obtain ⟨count, -, slots, -⟩ := exists_slots ok
  exact slots.nodup_iff.2 List.nodup_range

/-- **Every slot of a pin is in the buffer.** -/
theorem Program.slot_lt (ok : Program.ofTokens limits text = .ok (p, tables)) {pin : Pin}
    (mem : pin ∈ p.pins) {slot : Nat} (own : slot ∈ pin.slots) : slot < limits.pinCapacity := by
  obtain ⟨count, room, slots, -⟩ := exists_slots ok
  have held := slots.mem_iff.1 (List.mem_flatMap.2 ⟨pin, mem, own⟩)
  exact Nat.lt_of_lt_of_le (List.mem_range.1 held) room

end Programs

end PinnedStack
