import PinnedStack.Ty

/-!
# Pins

A pin is a name for a value that was taken off the stack and kept in slots of the pin buffer.

* `Pin` — a name, the type of its value and the first of its slots.
* `PinBook` — the pins in scope, innermost first, and the next free slot. Slots are handed out once
  and never again.
* `Sightings` — while a program is verified, the types that pins of kind `runtime` were bound to.
-/

namespace PinnedStack

/-- A name bound to the word slots from `slot` on. -/
structure Pin where
  name : String
  ty : Ty
  slot : Nat
deriving DecidableEq, Inhabited

/-- The slots of a pin, that of its bottom word first. -/
def Pin.slots (p : Pin) : List Nat := List.range' p.slot p.ty.width

@[simp] theorem Pin.length_slots (p : Pin) : p.slots.length = p.ty.width := by simp [Pin.slots]

/-- The pins in scope, the innermost first, and the slots handed out so far of a buffer of
`capacity`. -/
structure PinBook where
  live : List Pin
  nextSlot : Nat
  capacity : Nat
deriving DecidableEq

namespace PinBook

def empty (capacity : Nat) : PinBook := ⟨[], 0, capacity⟩

/-- Binds a name to fresh slots, in front of any pin of the same name. -/
def pin (b : PinBook) (name : String) (ty : Ty) : Except Fault (Pin × PinBook) :=
  if b.nextSlot + ty.width > b.capacity then
    .error (.pinsExhausted name ty.width b.capacity)
  else
    let p : Pin := ⟨name, ty, b.nextSlot⟩
    .ok (p, { b with live := p :: b.live, nextSlot := b.nextSlot + ty.width })

/-- The innermost pin of a name. -/
def find? (b : PinBook) (name : String) : Option Pin := b.live.find? (·.name == name)

/-- Ends the innermost binding of a name and hands out its pin. -/
def unpin (b : PinBook) (name : String) : Option Pin × PinBook :=
  (b.find? name, { b with live := b.live.eraseP (·.name == name) })

/-- A new pin starts at the next free slot and takes as many as its value has words. -/
theorem pin_eq_ok {b next : PinBook} {name : String} {ty : Ty} {p : Pin}
    (h : b.pin name ty = .ok (p, next)) :
    p = ⟨name, ty, b.nextSlot⟩ ∧ next.live = p :: b.live ∧ next.capacity = b.capacity
      ∧ next.nextSlot = b.nextSlot + ty.width ∧ next.nextSlot ≤ b.capacity := by
  unfold pin at h
  split at h
  · cases h
  · rename_i room
    cases h
    exact ⟨rfl, rfl, rfl, rfl, Nat.le_of_not_lt room⟩

end PinBook

/-- The types that runtime pins hold, that of the innermost binding first. -/
structure Sightings where
  seen : List (String × Ty)
deriving DecidableEq

namespace Sightings

def empty : Sightings := ⟨[]⟩

def isEmpty (s : Sightings) : Bool := s.seen.isEmpty

/-- Notes the type that a name is bound to from now on. -/
def record (s : Sightings) (name : String) (ty : Ty) : Sightings := ⟨(name, ty) :: s.seen⟩

/-- The type a name is bound to. -/
def current? (s : Sightings) (name : String) : Option Ty :=
  (s.seen.find? (·.1 == name)).map (·.2)

/-- Forgets the innermost binding of a name. -/
def release (s : Sightings) (name : String) : Sightings := ⟨s.seen.eraseP (·.1 == name)⟩

end Sightings

end PinnedStack
