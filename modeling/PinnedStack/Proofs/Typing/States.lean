import PinnedStack.Proofs.Typing.Rules

/-!
# The states of verification

* `Node.states`, `statesAll`, `statesFuncs`, `Program.states` — what is known at each step of
  verification, up to the first fault.
* `mem_statesAll_append` — nodes in order go through the states of one part and then of the other.
* `mem_statesAll_of_ok` — a body that is accepted ends in one of its states.
-/

namespace PinnedStack

/-- What follows a step that succeeds. -/
def onward {α β : Type} (step : Except Diagnostic α) (next : α → List β) : List β :=
  match step with
  | .ok a => next a
  | .error _ => []

theorem mem_onward {α β : Type} {step : Except Diagnostic α} {next : α → List β} {b : β} :
    b ∈ onward step next ↔ ∃ a, step = .ok a ∧ b ∈ next a := by
  cases step <;> simp [onward]

mutual

/-- What is known on the way through a node, after its start and before its end. -/
def Node.states : Node → Knowledge → List Knowledge
  | .op _ _, _ => []
  | .call _ _, _ => []
  | .ifTrue body _ place, k =>
      onward (k.shape.drop "if" .number place) fun s => statesAll body { k with shape := s }
  | .ifFalse body _ place, k =>
      onward (k.shape.drop "if" .number place) fun s => statesAll body { k with shape := s }
  | .ifElse yes no _ place, k =>
      onward (k.shape.drop "if" .number place) fun s =>
        statesAll yes { k with shape := s } ++
          onward (verifyAll yes { k with shape := s }) fun afterYes =>
            statesAll no { afterYes with shape := s }
  | .loop iterator condition body _ place, k =>
      onward (k.bindPin iterator place) fun bound => bound ::
        onward (bound.pushPin iterator place) fun start => statesAll condition start ++
          onward (verifyAll condition start) fun tested =>
            onward (tested.shape.drop "loop condition" .number place) fun s =>
              statesAll body { tested with shape := s } ++
                onward (verifyAll body { tested with shape := s }) fun round =>
                  onward ({ round with shape := bound.shape }.pushPin iterator place)
                    fun expected => expected ::
                      onward (round.updatePin iterator place) fun updated => updated ::
                        onward (updated.pushPin iterator place) fun last => [last]

/-- What is known on the way through nodes in order, from before the first to after the last. -/
def statesAll : List Node → Knowledge → List Knowledge
  | [], k => [k]
  | n :: ns, k => k :: (n.states k ++ onward (n.verify k) fun next => statesAll ns next)

end

/-- What is known on the way through functions in order. -/
def statesFuncs : List Func → Sightings → List Knowledge
  | [], _ => []
  | f :: fs, sightings =>
      statesAll f.body ⟨.ofTys f.contract.inputs f.place, sightings⟩ ++
        onward (f.verify sightings) fun next => statesFuncs fs next

/-- What is known on the way through a program. -/
def Program.states (p : Program) : List Knowledge := statesFuncs (p.functions ++ [p.main]) .empty

section States

variable {xs ys nodes : List Node} {n : Node} {k j : Knowledge}

theorem mem_statesAll_self (nodes : List Node) (k : Knowledge) : k ∈ statesAll nodes k := by
  cases nodes <;> simp [statesAll]

theorem mem_statesAll_cons : j ∈ statesAll (n :: nodes) k ↔
    j = k ∨ j ∈ n.states k ∨ ∃ next, n.verify k = .ok next ∧ j ∈ statesAll nodes next := by
  simp [statesAll, mem_onward]

theorem mem_statesAll_append : j ∈ statesAll (xs ++ ys) k ↔
    j ∈ statesAll xs k ∨ ∃ middle, verifyAll xs k = .ok middle ∧ j ∈ statesAll ys middle := by
  induction xs generalizing k with
  | nil =>
    simp only [List.nil_append, statesAll, List.mem_singleton, verifyAll, Except.ok.injEq,
      exists_eq_left']
    constructor
    · exact .inr
    · rintro (rfl | later)
      · exact mem_statesAll_self ys j
      · exact later
  | cons n xs ih =>
    simp only [List.cons_append, mem_statesAll_cons, ih, verifyAll_cons_eq_ok]
    constructor
    · rintro (here | inside | ⟨next, one, first | ⟨middle, rest, later⟩⟩)
      · exact .inl (.inl here)
      · exact .inl (.inr (.inl inside))
      · exact .inl (.inr (.inr ⟨next, one, first⟩))
      · exact .inr ⟨middle, ⟨next, one, rest⟩, later⟩
    · rintro ((here | inside | ⟨next, one, first⟩) | ⟨middle, ⟨next, one, rest⟩, later⟩)
      · exact .inl here
      · exact .inr (.inl inside)
      · exact .inr (.inr ⟨next, one, .inl first⟩)
      · exact .inr (.inr ⟨next, one, .inr ⟨middle, rest, later⟩⟩)

theorem mem_statesAll_singleton :
    j ∈ statesAll [n] k ↔ j = k ∨ j ∈ n.states k ∨ n.verify k = .ok j := by
  rw [mem_statesAll_cons]
  simp [statesAll]

/-- The state after the last node is one of those on the way. -/
theorem mem_statesAll_of_ok (ok : verifyAll nodes k = .ok j) : j ∈ statesAll nodes k := by
  induction nodes generalizing k with
  | nil =>
    cases ok
    exact mem_statesAll_self [] _
  | cons n nodes ih =>
    obtain ⟨next, one, rest⟩ := verifyAll_cons_eq_ok.1 ok
    exact mem_statesAll_cons.2 (.inr (.inr ⟨next, one, ih rest⟩))

end States

end PinnedStack
