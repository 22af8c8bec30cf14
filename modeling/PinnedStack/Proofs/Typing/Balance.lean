import PinnedStack.Proofs.Typing.Paths

/-!
# Blocks that leave the stack as they found it

* `Shape.Matches.symm`, `Shape.Matches.push` — stacks agree both ways, and a value that is put back
  on a stack agrees with the words that were taken off it.
* `Node.balanced_loop` — a loop ends on the stack it started from, the pin's value included.
* `Node.balanced_arm` — an `if` without another arm ends on the stack below its number.
* `Node.verify_balanced` — the two as comparisons of stacks.
-/

namespace PinnedStack

/-- Nothing but a number fits where a number is wanted. -/
theorem Ty.fits_number_iff {t : Ty} : t.fits .number = true ↔ t = .number := by
  cases t with
  | word kind => cases kind <;> decide
  | pointerTo target => exact iff_of_false nofun nofun
  | record r => exact iff_of_false nofun nofun

namespace Shape

variable {s t rest left : Shape} {op : String} {ty : Ty} {place : Place}

theorem Matches.symm (h : s.Matches t) : t.Matches s :=
  List.Forall₂.flip (h.imp fun _ _ fits => (Ty.fits_comm _ _).trans fits)

/-- A value that is put back agrees with the words that were taken off. -/
theorem Matches.push (below : left.Matches rest) (taken : s.dropValue op ty place = .ok rest)
    (origin : Place) : (left.push ty origin).Matches s := by
  obtain ⟨cells, eq, fits⟩ := dropValue_eq_ok.1 taken
  unfold Matches at *
  rw [cells_push, eq, ← List.map_reverse]
  have top : List.Forall₂ (fun w (c : Cell) => w.fits c.ty = true) ty.words.reverse cells :=
    List.Forall₂.flip (fits.imp fun _ _ fit => (Ty.fits_comm _ _).trans fit)
  exact List.rel_append (List.forall₂_map_left_iff.2 top) below

end Shape

namespace Node

variable {k after : Knowledge} {label : Nat} {place : Place}

/-- A loop ends on the stack it started from: the body leaves the next value of the pin on the stack
below the first one, it is taken off there, and the last one is pushed in its place. -/
theorem balanced_loop {p : Pin} {condition body : List Node} (static : p.ty.isRuntime = false)
    (ok : (loop p condition body label place).verify k = .ok after) :
    after.shape.Matches k.shape := by
  obtain ⟨below, _, _, round, left, first, -, -, -, -, again, next, rfl⟩ :=
    (verify_loop_eq_ok static).1 ok
  have kept : below.Matches left := again.of_push next
  exact kept.symm.push first place

/-- An arm without another ends on the stack below the number that it was taken on. -/
theorem balanced_arm {s : Shape} (top : k.shape.drop "if" .number place = .ok s)
    (arm : s.Matches after.shape) :
    ∃ c rest, k.shape.cells = c :: rest ∧ c.ty = .number ∧ after.shape.Matches ⟨rest⟩ := by
  obtain ⟨c, cells, number⟩ := Shape.drop_eq_ok.1 top
  exact ⟨c, s.cells, cells, Ty.fits_number_iff.1 number, arm.symm⟩

/-- **Loops and single-armed branches keep the shape of the stack.** Where a loop whose pin has a
type of its own is verified, its exit compares equal to its entry, the value of the pin included;
where an `if` with one arm is verified, its exit compares equal to its entry without the top word,
and that was a number. -/
theorem verify_balanced (k after : Knowledge) (label : Nat) (place : Place) :
    (∀ p condition body, p.ty.isRuntime = false →
      (loop p condition body label place).verify k = .ok after →
      (after.shape.diff k.shape).isEqual = true)
    ∧ ∀ body, (ifTrue body label place).verify k = .ok after
        ∨ (ifFalse body label place).verify k = .ok after →
      ∃ c rest, k.shape.cells = c :: rest ∧ c.ty = .number
        ∧ (after.shape.diff ⟨rest⟩).isEqual = true := by
  simp only [Shape.isEqual_diff]
  refine ⟨fun p condition body static ok => balanced_loop static ok, ?_⟩
  rintro body (ok | ok)
  · obtain ⟨s, top, -, arm⟩ := verify_ifTrue_eq_ok.1 ok
    exact balanced_arm top arm
  · obtain ⟨s, top, -, arm⟩ := verify_ifFalse_eq_ok.1 ok
    exact balanced_arm top arm

end Node

/-- A loop that keeps a string and ends when its length is zero; each round leaves the string. -/
def keptString : Node :=
  .loop ⟨"s", .str, 0⟩ [.op .drop ⟨1, 1, "t"⟩] [.op (.pinned ⟨"s", .str, 0⟩) ⟨1, 2, "t"⟩] 0
    ⟨1, 3, "t"⟩

/-- The length and the address of a string, where the address is known to lead to a number. -/
def typedString : Shape := ⟨[⟨.pointerTo .number, ⟨1, 4, "t"⟩⟩, ⟨.number, ⟨1, 5, "t"⟩⟩]⟩

/-- The loop takes the typed address for that of a string and ends on a string; an `if` with one arm
takes the number away that it was taken on. -/
theorem verify_balanced_keptString :
    (∃ after, keptString.verify ⟨typedString, .empty⟩ = .ok after ∧ after.shape ≠ typedString
      ∧ (after.shape.diff typedString).isEqual = true)
    ∧ ∃ after c rest, (Node.ifTrue [keptString] 1 ⟨1, 6, "t"⟩).verify
          ⟨typedString.push .number ⟨1, 7, "t"⟩, .empty⟩ = .ok after
        ∧ (typedString.push .number ⟨1, 7, "t"⟩).cells = c :: rest ∧ c.ty = .number
        ∧ (after.shape.diff ⟨rest⟩).isEqual = true := by
  have looped : keptString.verify ⟨typedString, .empty⟩
      = .ok ⟨Shape.empty.push .str ⟨1, 3, "t"⟩, .empty⟩ := by decide +kernel
  have armed : (Node.ifTrue [keptString] 1 ⟨1, 6, "t"⟩).verify
        ⟨typedString.push .number ⟨1, 7, "t"⟩, .empty⟩
      = .ok ⟨Shape.empty.push .str ⟨1, 3, "t"⟩, .empty⟩ := by decide +kernel
  refine ⟨⟨_, looped, by decide, (Node.verify_balanced _ _ _ _).1 _ _ _ rfl looped⟩, ?_⟩
  obtain ⟨c, rest, cells, number, same⟩ := (Node.verify_balanced _ _ _ _).2 _ (.inl armed)
  exact ⟨_, c, rest, armed, cells, number, same⟩

end PinnedStack
