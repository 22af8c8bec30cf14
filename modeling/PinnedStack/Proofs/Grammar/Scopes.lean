import Mathlib.Data.List.Forall2
import PinnedStack.Proofs.Grammar.Items

/-!
# Statements stand for well-scoped nodes

* `BindsAll.named`, `BindsAll.laid` — each name of a list has its own pin, and they take one slot after
  the other. `BindsParams.named`, `BindsParams.laid` — so have the inputs of a function.
* `Builds.scoped` — the nodes of statements fit the pins in scope, and their own pins take the slots
  that were handed out with them.
-/

namespace PinnedStack

variable {callees : List Call} {g : Globals} {s next : Supply} {t : Token} {byDefault : Ty} {p : Pin}

/-- A name has the type that it has by default, or one that the text denotes. -/
theorem Names.fits (hg : g.Sound callees) {name : String} {ty : Ty}
    (h : Names g t byDefault name ty) : ty = byDefault ∨ ty.Sound := by
  cases h with
  | bare => exact .inl rfl
  | typed _ resolved => exact .inr (Globals.tyOf_sound hg resolved)

theorem Binds.sound (hg : g.Sound callees) (h : Binds g s t .number p next) : p.ty.Sound := by
  rcases h.named.fits hg with eq | sound
  · rw [eq]
    exact .inl rfl
  · exact sound

theorem Binds.nextSlot_eq (h : Binds g s t byDefault p next) :
    next.nextSlot = s.nextSlot + p.ty.width := by
  rw [h.next]
  rfl

theorem Binds.laid (h : Binds g s t byDefault p next) : Pin.Laid s.nextSlot [p] next.nextSlot :=
  ⟨h.slot, h.nextSlot_eq.symm⟩

section Lists

variable {ts : List Token} {params : List (String × Ty)} {pins : List Pin}

theorem BindsAll.named (h : BindsAll g byDefault s ts pins next) :
    List.Forall₂ (fun t p => Names g t byDefault p.name p.ty) ts pins := by
  induction h with
  | nil => exact .nil
  | cons first _ ih => exact .cons first.named ih

theorem BindsAll.fits (hg : g.Sound callees) (h : BindsAll g .runtime s ts pins next) :
    ∀ p ∈ pins, p.Fits := by
  induction h with
  | nil => simp
  | cons first _ ih => exact List.forall_mem_cons.2 ⟨first.named.fits hg, ih⟩

theorem BindsAll.laid (h : BindsAll g byDefault s ts pins next) :
    Pin.Laid s.nextSlot pins next.nextSlot := by
  induction h with
  | nil => rfl
  | cons first _ ih => exact ⟨first.slot, first.nextSlot_eq ▸ ih⟩

theorem BindsParams.named (h : BindsParams s params pins next) :
    pins.map (fun p => (p.name, p.ty)) = params := by
  induction h with
  | nil => rfl
  | cons _ _ ih => rw [List.map_cons, ih]

theorem BindsParams.sound (sound : Survey.SoundParams params)
    (h : BindsParams s params pins next) : ∀ p ∈ pins, p.ty.Sound := fun p mem =>
  sound (p.name, p.ty) (h.named ▸ List.mem_map_of_mem mem)

theorem BindsParams.laid (h : BindsParams s params pins next) :
    Pin.Laid s.nextSlot pins next.nextSlot := by
  induction h with
  | nil => rfl
  | cons _ _ ih => exact ⟨rfl, ih⟩

end Lists

theorem Leaf.nextSlot_eq {node : Node} (h : Leaf g s t node next) : next.nextSlot = s.nextSlot :=
  congrArg PinBook.nextSlot h.book_eq

theorem Leaf.fits (hg : g.Sound callees) {node : Node} (h : Leaf g s t node next) :
    node.Fits callees s.book.live := by
  cases h with
  | number | string | cstring => trivial
  | word _ resolved => exact Reader.resolve_fits hg resolved

@[simp] theorem Supply.label_book (s : Supply) : s.label.2.book = s.book := rfl

@[simp] theorem Supply.label_nextSlot (s : Supply) : s.label.2.nextSlot = s.nextSlot := rfl

/-- **Statements stand for well-scoped nodes.** -/
theorem Builds.scoped (hg : g.Sound callees) {ss : List Statement} {nodes : List Node}
    (h : Builds g s ss nodes next) :
    Scoped callees s.book.live s.nextSlot next.nextSlot nodes := by
  induction h with
  | nil => exact .nil (Nat.le_refl _)
  | atom here _ ih =>
    rw [here.book_eq, here.nextSlot_eq] at ih
    exact (Scoped.leaf (here.fits hg)).append ih
  | ifThen inner _ ihInner ihAfter =>
    rw [inner.live_eq] at ihAfter
    exact (Scoped.ifTrue ihInner).append ihAfter
  | ifNo left right _ ihLeft ihRight ihAfter =>
    rw [right.live_eq, left.live_eq] at ihAfter
    rw [left.live_eq] at ihRight
    exact ((Scoped.ifFalse ihRight).widen ihLeft.le (Nat.le_refl _)).append ihAfter
  | ifBoth left right _ ihLeft ihRight ihAfter =>
    rw [right.live_eq, left.live_eq] at ihAfter
    rw [left.live_eq] at ihRight
    exact (Scoped.ifElse ihLeft ihRight).append ihAfter
  | loop bound left _ _ ihLeft ihRight ihAfter =>
    rw [left.live_eq] at ihRight
    rw [Supply.label_book, bound.live_eq] at ihLeft ihRight
    rw [Supply.label_nextSlot, bound.nextSlot_eq, ← bound.slot] at ihLeft
    exact (bound.slot ▸ Scoped.loop (bound.sound hg) ihLeft ihRight).append ihAfter
  | bind bound _ _ ihWithin ihAfter =>
    rw [bound.live_eq] at ihWithin
    exact (Scoped.bind (bound.fits hg) bound.laid ihWithin).append ihAfter

end PinnedStack
