import PinnedStack.Proofs.Typing.Rules

/-!
# Verification looks at the top of the stack only

Whatever a body does to a stack, it does on top of any other one.

* `Shape.over`, `Knowledge.over` — one stack on top of another.
* `Shape.Known` — a stack without words that stand for errors: it compares equal to itself.
* `Shape.dropValue_over`, `Contract.applyTo_over`, `Op.verify_over` — the steps of verification.
* `verifyAll_frame` — whole bodies. Branches and loops compare whole stacks, so the words below take
  part in every comparison.
-/

namespace PinnedStack

/-! ## One stack on top of another -/

/-- The words of one stack on top of those of another. -/
def Shape.over (s t : Shape) : Shape := ⟨s.cells ++ t.cells⟩

/-- The same of what is known at a point of a body. -/
def Knowledge.over (k : Knowledge) (t : Shape) : Knowledge := { k with shape := k.shape.over t }

/-- No word stands for an error. -/
def Shape.Known (t : Shape) : Prop := ∀ c ∈ t.cells, c.ty ≠ .unknown

namespace Shape

variable {s s' t rest : Shape} {op : String} {place : Place}

@[simp] theorem cells_over (s t : Shape) : (s.over t).cells = s.cells ++ t.cells := rfl

theorem push_over (s t : Shape) (ty : Ty) (place : Place) :
    (s.push ty place).over t = (s.over t).push ty place := by
  simp [Shape.over, push]

theorem pushAll_over (s t : Shape) (ts : List Ty) (place : Place) :
    (s.pushAll ts place).over t = (s.over t).pushAll ts place := by
  unfold pushAll
  induction ts generalizing s with
  | nil => rfl
  | cons u ts ih => rw [List.foldl_cons, List.foldl_cons, ih, push_over]

/-- Stacks that match go on doing so on top of the same words. -/
theorem Matches.over (h : s.Matches s') (known : t.Known) : (s.over t).Matches (s'.over t) :=
  List.rel_append h (List.forall₂_same.2 fun c mem => Ty.fits_self (known c mem))

theorem drop_over {expected : Ty} (ok : s.drop op expected place = .ok rest) (t : Shape) :
    (s.over t).drop op expected place = .ok (rest.over t) := by
  obtain ⟨c, eq, fit⟩ := drop_eq_ok.1 ok
  exact drop_eq_ok.2 ⟨c, by simp [eq], fit⟩

theorem dropValue_over {ty : Ty} (ok : s.dropValue op ty place = .ok rest) (t : Shape) :
    (s.over t).dropValue op ty place = .ok (rest.over t) := by
  obtain ⟨cells, eq, fits⟩ := dropValue_eq_ok.1 ok
  exact dropValue_eq_ok.2 ⟨cells, by simp [eq], fits⟩

end Shape

theorem Contract.applyTo_over {c : Contract} {s after : Shape} {op : String} {place : Place}
    (ok : c.applyTo s op place = .ok after) (t : Shape) :
    c.applyTo (s.over t) op place = .ok (after.over t) := by
  obtain ⟨cells, rest, eq, fits, rfl⟩ := applyTo_eq_ok.1 ok
  exact applyTo_eq_ok.2 ⟨cells, rest ++ t.cells, by simp [eq], fits, Shape.pushAll_over ..⟩

/-! ## Operations -/

theorem Op.Turns.over {op : Op} {place : Place} {s after : Shape} (h : op.Turns place s after)
    (t : Shape) : op.Turns place (s.over t) (after.over t) := by
  cases h with
  | dup => exact .dup
  | drop => exact .drop
  | swap => exact .swap
  | copySecond => exact .copySecond
  | rot => exact .rot
  | add rule =>
    rw [Shape.push_over]
    exact .add rule
  | sub rule =>
    rw [Shape.push_over]
    exact .sub rule
  | load wide leads =>
    rw [Shape.push_over]
    exact .load wide leads
  | @store access c cells rest ty wide leads fits =>
    have turns : Op.Turns place (.store access) ⟨c :: (cells ++ (rest ++ t.cells))⟩ _ :=
      .store wide leads fits
    simpa [Shape.over] using turns
  | @syscall arguments c cells rest number count concrete =>
    have turns : Op.Turns place (.syscall arguments) ⟨c :: (cells ++ (rest ++ t.cells))⟩ _ :=
      .syscall number count concrete
    rw [Shape.push_over]
    simpa [Shape.over] using turns
  | @fixed op contract cells rest effect fits =>
    have turns : op.Turns place ⟨cells.reverse ++ (rest ++ t.cells)⟩ _ := .fixed effect fits
    rw [Shape.pushAll_over]
    simpa [Shape.over] using turns

namespace Knowledge

variable {k after : Knowledge} {p : Pin} {place : Place}

@[simp] theorem shape_over (k : Knowledge) (t : Shape) : (k.over t).shape = k.shape.over t := rfl

@[simp] theorem sightings_over (k : Knowledge) (t : Shape) : (k.over t).sightings = k.sightings := rfl

@[simp] theorem tyOf_over (k : Knowledge) (t : Shape) : (k.over t).tyOf p place = k.tyOf p place := rfl

theorem releasePin_over (k : Knowledge) (t : Shape) (p : Pin) :
    (k.releasePin p).over t = (k.over t).releasePin p := by
  unfold releasePin
  split <;> rfl

theorem bindPin_over (ok : k.bindPin p place = .ok after) (t : Shape) :
    (k.over t).bindPin p place = .ok (after.over t) := by
  cases runtime : p.ty.isRuntime with
  | false =>
    obtain ⟨rest, top, rfl⟩ := (bindPin_eq_ok runtime).1 ok
    exact (bindPin_eq_ok runtime).2 ⟨rest.over t, Shape.dropValue_over top t, rfl⟩
  | true =>
    have none := Ty.isRuntime_iff.1 runtime
    obtain ⟨c, rest, eq, single, rfl⟩ := (bindPin_runtime_eq_ok none).1 ok
    exact (bindPin_runtime_eq_ok none).2 ⟨c, rest ++ t.cells, by simp [eq], single, rfl⟩

theorem updatePin_over (ok : k.updatePin p place = .ok after) (t : Shape) :
    (k.over t).updatePin p place = .ok (after.over t) := by
  obtain ⟨ty, rest, typed, top, rfl⟩ := updatePin_eq_ok.1 ok
  exact updatePin_eq_ok.2 ⟨ty, rest.over t, typed, Shape.dropValue_over top t, rfl⟩

theorem pushPin_over (ok : k.pushPin p place = .ok after) (t : Shape) :
    (k.over t).pushPin p place = .ok (after.over t) := by
  obtain ⟨ty, typed, rfl⟩ := pushPin_eq_ok.1 ok
  exact pushPin_eq_ok.2 ⟨ty, typed, by rw [shape_over, ← Shape.push_over]; rfl⟩

end Knowledge

theorem Op.verify_over {op : Op} {place : Place} {k after : Knowledge}
    (ok : op.verify place k = .ok after) (t : Shape) :
    op.verify place (k.over t) = .ok (after.over t) := by
  cases pinning : op.isPinning with
  | true =>
    cases op with
    | pin p => exact Knowledge.bindPin_over ok t
    | update p => exact Knowledge.updatePin_over ok t
    | pinned p => exact Knowledge.pushPin_over ok t
    | unpin p =>
      cases ok
      exact congrArg Except.ok (Knowledge.releasePin_over k t p).symm
    | _ => cases pinning
  | false =>
    obtain ⟨s, turns, rfl⟩ := (verify_eq_ok pinning).1 ok
    exact (verify_eq_ok pinning).2 ⟨s.over t, turns.over t, rfl⟩

/-! ## Bodies -/

mutual

theorem Node.verify_over {t : Shape} (known : t.Known) : (n : Node) → {k after : Knowledge} →
    n.verify k = .ok after → n.verify (k.over t) = .ok (after.over t)
  | .op _ _, _, _, ok => Op.verify_over ok t
  | .call _ _, _, _, ok => by
    obtain ⟨s, applied, rfl⟩ := Node.verify_call_eq_ok.1 ok
    exact Node.verify_call_eq_ok.2 ⟨s.over t, Contract.applyTo_over applied t, rfl⟩
  | .ifTrue body _ _, _, _, ok => by
    obtain ⟨s, top, arm, same⟩ := Node.verify_ifTrue_eq_ok.1 ok
    exact Node.verify_ifTrue_eq_ok.2
      ⟨s.over t, Shape.drop_over top t, verifyAll_over known body arm, same.over known⟩
  | .ifFalse body _ _, _, _, ok => by
    obtain ⟨s, top, arm, same⟩ := Node.verify_ifFalse_eq_ok.1 ok
    exact Node.verify_ifFalse_eq_ok.2
      ⟨s.over t, Shape.drop_over top t, verifyAll_over known body arm, same.over known⟩
  | .ifElse yes no _ _, _, _, ok => by
    obtain ⟨s, afterYes, afterNo, top, left, right, same, rfl⟩ := Node.verify_ifElse_eq_ok.1 ok
    exact Node.verify_ifElse_eq_ok.2 ⟨s.over t, afterYes.over t, afterNo.over t,
      Shape.drop_over top t, verifyAll_over known yes left, verifyAll_over known no right,
      same.over known, rfl⟩
  | .loop p condition body _ _, _, _, ok => by
    obtain ⟨bound, start, tested, s, round, expected, updated, last, bind, push, test, number, same,
      turn, next, again, update, out, rfl⟩ := Node.verify_loop_iff.1 ok
    exact Node.verify_loop_iff.2 ⟨bound.over t, start.over t, tested.over t, s.over t, round.over t,
      expected.over t, updated.over t, last.over t, Knowledge.bindPin_over bind t,
      Knowledge.pushPin_over push t, verifyAll_over known condition test, Shape.drop_over number t,
      same.over known, verifyAll_over known body turn, Knowledge.pushPin_over next t,
      again.over known, Knowledge.updatePin_over update t, Knowledge.pushPin_over out t,
      Knowledge.releasePin_over last t p⟩

/-- Nodes in order work on top of any stack. -/
theorem verifyAll_over {t : Shape} (known : t.Known) : (nodes : List Node) →
    {k after : Knowledge} → verifyAll nodes k = .ok after →
    verifyAll nodes (k.over t) = .ok (after.over t)
  | [], _, _, ok => by
    cases ok
    rfl
  | n :: ns, _, _, ok => by
    obtain ⟨next, one, rest⟩ := verifyAll_cons_eq_ok.1 ok
    exact verifyAll_cons_eq_ok.2
      ⟨next.over t, Node.verify_over known n one, verifyAll_over known ns rest⟩

end

/-- **A body that verifies from a stack verifies on top of any other**, and leaves the words below and
the types of runtime pins as it does without them. -/
theorem verifyAll_frame {nodes : List Node} {s s' t : Shape} {σ σ' : Sightings}
    (ok : verifyAll nodes ⟨s, σ⟩ = .ok ⟨s', σ'⟩) (known : ∀ c ∈ t.cells, c.ty ≠ .unknown) :
    verifyAll nodes ⟨⟨s.cells ++ t.cells⟩, σ⟩ = .ok ⟨⟨s'.cells ++ t.cells⟩, σ'⟩ :=
  verifyAll_over known nodes ok

/-- The code `if dup else 7 ; loop i 0 > do i 1 - ; bind x y in y x`. -/
def branchAndLoop : List Node :=
  [.ifElse [.op .dup ⟨1, 4, "t"⟩] [.op (.number 7) ⟨1, 13, "t"⟩] 0 ⟨1, 1, "t"⟩,
    .loop ⟨"i", .number, 0⟩ [.op (.number 0) ⟨1, 24, "t"⟩, .op (.binary .gt) ⟨1, 26, "t"⟩]
      [.op (.pinned ⟨"i", .number, 0⟩) ⟨1, 31, "t"⟩, .op (.number 1) ⟨1, 33, "t"⟩,
        .op (.binary .sub) ⟨1, 35, "t"⟩] 1 ⟨1, 17, "t"⟩,
    .op (.pin ⟨"y", .runtime, 2⟩) ⟨1, 39, "t"⟩, .op (.pin ⟨"x", .runtime, 1⟩) ⟨1, 39, "t"⟩,
    .op (.pinned ⟨"y", .runtime, 2⟩) ⟨1, 51, "t"⟩, .op (.pinned ⟨"x", .runtime, 1⟩) ⟨1, 53, "t"⟩]

/-- From two numbers these nodes leave two and note what `x` and `y` hold; the words below stay, one
of them a record as a whole. -/
theorem verifyAll_frame_branchAndLoop :
    ∃ s s' t : Shape, s.size = 2 ∧ t.cells.map (·.ty) = [.pointerTo .unknown, .str]
      ∧ verifyAll branchAndLoop ⟨s, .empty⟩ = .ok ⟨s', ⟨[("x", .number), ("y", .number)]⟩⟩
      ∧ (∀ c ∈ t.cells, c.ty ≠ .unknown)
      ∧ verifyAll branchAndLoop ⟨⟨s.cells ++ t.cells⟩, .empty⟩
        = .ok ⟨⟨s'.cells ++ t.cells⟩, ⟨[("x", .number), ("y", .number)]⟩⟩ := by
  have ok : verifyAll branchAndLoop ⟨⟨[⟨.number, .builtin⟩, ⟨.number, .builtin⟩]⟩, .empty⟩
      = .ok ⟨⟨[⟨.number, ⟨1, 53, "t"⟩⟩, ⟨.number, ⟨1, 51, "t"⟩⟩]⟩,
        ⟨[("x", .number), ("y", .number)]⟩⟩ := by
    decide +kernel
  have known : ∀ c ∈ [(⟨.pointerTo .unknown, .builtin⟩ : Cell), ⟨.str, .builtin⟩],
      c.ty ≠ .unknown := by decide
  exact ⟨_, _, ⟨[⟨.pointerTo .unknown, .builtin⟩, ⟨.str, .builtin⟩]⟩, rfl, rfl, ok, known,
    verifyAll_frame ok known⟩

end PinnedStack
