import PinnedStack.Reader

/-!
# Well-scoped trees

What can be said of the nodes of a body once the text has been read, whatever the text.

* `Ty.Sound`, `Contract.Sound` — types whose words are numbers and addresses throughout.
* `Op.Fits`, `Node.Fits` — an operation whose pins are in scope and whose operands are in range, and
  a node made of one, or a call to a known function.
* `Pin.Laid` — pins that take consecutive runs of slots.
* `Scoped` — a body whose blocks nest, whose pins are those in scope and whose own pins take their
  slots from a given range. `Scoped.append` joins bodies end to end.
-/

namespace PinnedStack

/-! ## Sound types -/

/-- A record of at least one word, all of them numbers or addresses. -/
def Record.Sound (r : Record) : Prop :=
  r.fields ≠ [] ∧ ∀ f ∈ r.fields, f.kind = .number ∨ f.kind = .pointer

/-- A type made of numbers and addresses only. -/
def Ty.Sound : Ty → Prop
  | .word kind => kind = .number ∨ kind = .pointer
  | .pointerTo target => target.Sound
  | .record r => r.Sound

/-- A contract between values of sound types. -/
def Contract.Sound (c : Contract) : Prop := (∀ t ∈ c.inputs, t.Sound) ∧ ∀ t ∈ c.outputs, t.Sound

theorem Record.sound_str : Record.str.Sound := by simp [Record.Sound, Record.str]

theorem Record.sound_cstr : Record.cstr.Sound := by simp [Record.Sound, Record.cstr]

theorem Record.Sound.of_mem_layout {r : Record} (h : r.Sound) {f : PlacedField}
    (hf : f ∈ r.layout) : f.kind = .number ∨ f.kind = .pointer := by
  obtain ⟨⟨field, i⟩, mem, rfl⟩ := List.mem_map.1 hf
  exact h.2 field (List.fst_mem_of_mem_zipIdx mem)

theorem Ty.sound_ofRecord {r : Record} (h : r.Sound) : (Ty.ofRecord r).Sound := by
  unfold Ty.ofRecord
  split
  · rename_i only eq
    exact h.2 only (by simp [eq])
  · exact h

theorem Ty.Sound.kind_eq {t : Ty} {kind : Kind} (h : t.Sound) (hk : t.kind? = some kind) :
    kind = .number ∨ kind = .pointer := by
  cases t with
  | word k =>
    cases hk
    exact h
  | pointerTo _ =>
    cases hk
    exact .inr rfl
  | record _ => cases hk

theorem Ty.Sound.width_pos {t : Ty} (h : t.Sound) : 0 < t.width := by
  cases t with
  | word _ => exact Nat.one_pos
  | pointerTo _ => exact Nat.one_pos
  | record r => exact List.length_pos_iff.2 h.1

theorem Ty.Sound.isRuntime_eq_false {t : Ty} (h : t.Sound) : t.isRuntime = false := by
  cases t with
  | word k => rcases h with rfl | rfl <;> rfl
  | pointerTo _ => rfl
  | record _ => rfl

/-! ## Operations in scope -/

/-- An operation that a body may hold where the given pins are in scope, innermost first. Binding
and release are left out: they only stand around the body of a binding. -/
def Op.Fits (scope : List Pin) : Op → Prop
  | .memory _ ty => ty.isPointer = true ∧ ty.Sound
  | .load (.record r) => r.Sound
  | .store (.record r) => r.Sound
  | .field r f => r.Sound ∧ f ∈ r.layout
  | .syscall arguments => arguments ≤ maxSyscallArguments
  | .cast kind => kind = .number ∨ kind = .pointer
  | .pinned p => scope.find? (·.name == p.name) = some p
  | .update p => scope.find? (·.name == p.name) = some p
  | .pin _ => False
  | .unpin _ => False
  | _ => True

/-- A node without nodes of its own that a body may hold in scope of the given pins. -/
def Node.Fits (callees : List Call) (scope : List Pin) : Node → Prop
  | .op operation _ => operation.Fits scope
  | .call callee _ => callee ∈ callees
  | _ => False

/-- A pin whose type is sound or is left to the value it is bound to. -/
def Pin.Fits (p : Pin) : Prop := p.ty = .runtime ∨ p.ty.Sound

theorem Pin.Fits.width_pos {p : Pin} (h : p.Fits) : 0 < p.ty.width := by
  rcases h with h | h
  · rw [h]
    exact Nat.one_pos
  · exact h.width_pos

/-- Pins that take the slots from `first` up to `stop`, one after the other. -/
def Pin.Laid (first : Nat) : List Pin → Nat → Prop
  | [], stop => first = stop
  | p :: rest, stop => p.slot = first ∧ Laid (first + p.ty.width) rest stop

theorem Pin.Laid.append {first middle stop : Nat} {ps qs : List Pin}
    (hp : Pin.Laid first ps middle) (hq : Pin.Laid middle qs stop) :
    Pin.Laid first (ps ++ qs) stop := by
  induction ps generalizing first with
  | nil =>
    obtain rfl : first = middle := hp
    exact hq
  | cons p ps ih => exact ⟨hp.1, ih hp.2⟩

theorem Pin.Laid.le {first stop : Nat} {ps : List Pin} (h : Pin.Laid first ps stop) :
    first ≤ stop := by
  induction ps generalizing first with
  | nil => exact Nat.le_of_eq h
  | cons p ps ih => exact Nat.le_trans (Nat.le_add_right ..) (ih h.2)

theorem Pin.Laid.range {first stop : Nat} {ps : List Pin} (h : Pin.Laid first ps stop) :
    ∀ p ∈ ps, first ≤ p.slot ∧ p.slot + p.ty.width ≤ stop := by
  induction ps generalizing first with
  | nil => simp
  | cons q ps ih =>
    intro p mem
    rcases List.mem_cons.1 mem with rfl | mem
    · exact ⟨Nat.le_of_eq h.1.symm, h.1 ▸ h.2.le⟩
    · obtain ⟨low, high⟩ := ih h.2 p mem
      exact ⟨Nat.le_trans (Nat.le_add_right ..) low, high⟩

theorem Pin.mem_slots {p : Pin} {slot : Nat} :
    slot ∈ p.slots ↔ p.slot ≤ slot ∧ slot < p.slot + p.ty.width := by
  simp [Pin.slots]

/-! ## Bodies -/

/-- Nodes that stand where the pins of `scope` are live, innermost first. The pins that the nodes
bind take slots from `first` on and below `stop`; slots in between may be left to other bodies. -/
inductive Scoped (callees : List Call) : List Pin → Nat → Nat → List Node → Prop where
  | nil {scope : List Pin} {first stop : Nat} (le : first ≤ stop) : Scoped callees scope first stop []
  | append {scope : List Pin} {first middle stop : Nat} {xs ys : List Node}
      (left : Scoped callees scope first middle xs) (right : Scoped callees scope middle stop ys) :
      Scoped callees scope first stop (xs ++ ys)
  | op {scope : List Pin} {first : Nat} {op : Op} {place : Place} (fits : op.Fits scope) :
      Scoped callees scope first first [.op op place]
  | call {scope : List Pin} {first : Nat} {call : Call} {place : Place}
      (known : call ∈ callees) :
      Scoped callees scope first first [.call call place]
  | ifTrue {scope : List Pin} {first stop : Nat} {body : List Node} {label : Nat} {place : Place}
      (inner : Scoped callees scope first stop body) :
      Scoped callees scope first stop [.ifTrue body label place]
  | ifFalse {scope : List Pin} {first stop : Nat} {body : List Node} {label : Nat} {place : Place}
      (inner : Scoped callees scope first stop body) :
      Scoped callees scope first stop [.ifFalse body label place]
  | ifElse {scope : List Pin} {first middle stop : Nat} {yes no : List Node} {label : Nat}
      {place : Place} (left : Scoped callees scope first middle yes)
      (right : Scoped callees scope middle stop no) :
      Scoped callees scope first stop [.ifElse yes no label place]
  | loop {scope : List Pin} {middle stop : Nat} {p : Pin} {condition body : List Node} {label : Nat}
      {place : Place} (sound : p.ty.Sound)
      (left : Scoped callees (p :: scope) (p.slot + p.ty.width) middle condition)
      (right : Scoped callees (p :: scope) middle stop body) :
      Scoped callees scope p.slot stop [.loop p condition body label place]
  | bind {scope : List Pin} {first middle stop : Nat} {pins : List Pin} {body : List Node}
      {place : Place} (fits : ∀ p ∈ pins, p.Fits) (laid : Pin.Laid first pins middle)
      (inner : Scoped callees (pins.reverse ++ scope) middle stop body) :
      Scoped callees scope first stop
        (Reader.pinNodes pins place ++ body ++ Reader.unpinNodes pins place)

namespace Scoped

variable {callees : List Call} {scope : List Pin} {first stop : Nat} {nodes : List Node}

theorem le (h : Scoped callees scope first stop nodes) : first ≤ stop := by
  induction h with
  | nil le => exact le
  | append _ _ left right => exact Nat.le_trans left right
  | op => exact Nat.le_refl _
  | call => exact Nat.le_refl _
  | ifTrue _ inner => exact inner
  | ifFalse _ inner => exact inner
  | ifElse _ _ left right => exact Nat.le_trans left right
  | loop _ _ _ left right => omega
  | bind _ laid _ inner => exact Nat.le_trans laid.le inner

theorem leaf {node : Node} (fits : node.Fits callees scope) :
    Scoped callees scope first first [node] := by
  match node, fits with
  | .op _ _, fits => exact op fits
  | .call _ _, known => exact call known

/-- Slots that the nodes leave alone may be counted to them. -/
theorem widen (h : Scoped callees scope first stop nodes) {low high : Nat} (hl : low ≤ first)
    (hh : stop ≤ high) : Scoped callees scope low high nodes := by
  simpa using ((nil hl).append h).append (nil hh)

end Scoped

end PinnedStack
