import PinnedStack.Proofs.Typing.Rules

/-!
# Steps that fail for no name's sake

Verification is about types; the one name it looks up is that of a pin.

* `Resolves` — a step that fails, if at all, for another cause than an unresolved name.
* `resolves_bind` — such steps in order.
* `Shape.resolves_pop` … `Knowledge.resolves_pushPin` — the steps that verification is made of. Those
  that look up a pin are given its type.
-/

namespace PinnedStack

/-- Is it a name without a meaning that is at fault? -/
def Fault.isUnresolved : Fault → Bool
  | unresolved _ => true
  | _ => false

/-- A step that fails, if at all, for another cause than an unresolved name. -/
def Resolves {α : Type} (step : Except Diagnostic α) : Prop :=
  ∀ d, step = .error d → d.fault.isUnresolved = false

section Resolves

variable {α β : Type} {place : Place} {op : String} {s : Shape} {k : Knowledge} {p : Pin}

@[simp] theorem resolves_ok (a : α) : Resolves (.ok a : Except Diagnostic α) :=
  fun _ eq => by cases eq

@[simp] theorem resolves_error {d : Diagnostic} :
    Resolves (.error d : Except Diagnostic α) ↔ d.fault.isUnresolved = false := by
  simp [Resolves]

theorem resolves_bind {step : Except Diagnostic α} {next : α → Except Diagnostic β}
    (first : Resolves step) (rest : ∀ a, step = .ok a → Resolves (next a)) :
    Resolves (step >>= next) := by
  cases step with
  | ok a => exact rest a rfl
  | error d => exact resolves_error.2 (resolves_error.1 first)

@[simp] theorem Shape.isUnresolved_lacking (count : Nat) :
    (s.lacking op count place).fault.isUnresolved = false := rfl

theorem Shape.resolves_require (count : Nat) : Resolves (s.require op count place) := by
  unfold require
  split <;> simp

theorem Shape.resolves_take (count : Nat) : Resolves (s.take op count place) := by
  unfold take
  split <;> simp

theorem Shape.resolves_pop : Resolves (s.pop op place) := by
  unfold pop
  split <;> simp

theorem Shape.resolves_drop (expected : Ty) : Resolves (s.drop op expected place) := by
  unfold drop popExpecting
  cases s.cells with
  | nil => simp
  | cons c rest =>
    by_cases fits : c.ty.fits expected = true
    · simp [fits]
    · simp [fits, Fault.isUnresolved]

theorem Shape.resolves_dropAll (expected : List Ty) : Resolves (s.dropAll op place expected) := by
  induction expected generalizing s with
  | nil => simp [dropAll]
  | cons t ts ih =>
    unfold dropAll
    split
    · exact ih
    · rename_i d short
      exact resolves_error.2 (resolves_drop t d short)

theorem Shape.resolves_dropValue (t : Ty) : Resolves (s.dropValue op t place) := by
  unfold dropValue
  split
  · exact resolves_dropAll _
  · rename_i d short
    exact resolves_error.2 (resolves_require _ d short)

theorem Contract.resolves_applyTo (c : Contract) : Resolves (c.applyTo s op place) := by
  unfold applyTo
  simp only
  split
  · rename_i d short
    exact resolves_error.2 (Shape.resolves_take _ d short)
  · split
    · simp [Fault.isUnresolved]
    · simp

theorem resolves_pointee (address : Ty) (access : Access) :
    Resolves (pointee op address access place) := by
  unfold pointee
  simp only
  split
  · simp [Fault.isUnresolved]
  · split
    · simp
    · simp
    · split <;> simp [Fault.isUnresolved]
    · simp
    · split <;> simp [Fault.isUnresolved]

theorem Ty.isUnresolved_expectNumber {t : Ty} {fault : Fault}
    (refused : t.expectNumber op = .error fault) : fault.isUnresolved = false := by
  unfold expectNumber at refused
  split at refused
  · cases refused
  · cases refused
    rfl

theorem Except.bind_eq_error {ε : Type} {x : Except ε α} {f : α → Except ε β} {e : ε} :
    (x >>= f) = .error e ↔ x = .error e ∨ ∃ a, x = .ok a ∧ f a = .error e := by
  cases x with
  | ok a => simp [bind, Except.bind]
  | error e => simp [bind, Except.bind]

theorem Ty.isUnresolved_plus {a b : Ty} {fault : Fault} (refused : a.plus b = .error fault) :
    fault.isUnresolved = false := by
  unfold plus at refused
  split at refused
  · cases refused
    rfl
  · obtain number | ⟨_, _, done⟩ := Except.bind_eq_error.1 refused
    · exact isUnresolved_expectNumber number
    · cases done
  · obtain number | ⟨_, _, done⟩ := Except.bind_eq_error.1 refused
    · exact isUnresolved_expectNumber number
    · cases done
  · obtain left | ⟨_, _, refused⟩ := Except.bind_eq_error.1 refused
    · exact isUnresolved_expectNumber left
    · obtain right | ⟨_, _, done⟩ := Except.bind_eq_error.1 refused
      · exact isUnresolved_expectNumber right
      · cases done

theorem Ty.isUnresolved_minus {a b : Ty} {fault : Fault} (refused : a.minus b = .error fault) :
    fault.isUnresolved = false := by
  unfold minus at refused
  split at refused
  · cases refused
  · obtain number | ⟨_, _, done⟩ := Except.bind_eq_error.1 refused
    · exact isUnresolved_expectNumber number
    · cases done
  · cases refused
    rfl
  · obtain left | ⟨_, _, refused⟩ := Except.bind_eq_error.1 refused
    · exact isUnresolved_expectNumber left
    · obtain right | ⟨_, _, done⟩ := Except.bind_eq_error.1 refused
      · exact isUnresolved_expectNumber right
      · cases done

namespace Op

theorem resolves_verifySum {rule : Ty → Ty → Except Fault Ty}
    (known : ∀ {a b fault}, rule a b = .error fault → fault.isUnresolved = false) :
    Resolves (verifySum op rule place s) := by
  unfold verifySum
  split
  · rename_i b a rest _
    cases sum : rule a.ty b.ty with
    | ok ty => simp [located]
    | error fault => simpa [located] using known sum
  · simp

theorem resolves_verifyLoad (access : Access) : Resolves (verifyLoad op access place s) := by
  unfold verifyLoad
  split
  · rename_i d short
    exact resolves_error.2 (Shape.resolves_pop d short)
  · split
    · simp
    · rename_i d refused
      exact resolves_error.2 (resolves_pointee _ _ d refused)

theorem resolves_verifyStore (access : Access) : Resolves (verifyStore op access place s) := by
  unfold verifyStore
  split
  · rename_i d short
    exact resolves_error.2 (Shape.resolves_pop d short)
  · split
    · exact Shape.resolves_dropValue _
    · rename_i d refused
      exact resolves_error.2 (resolves_pointee _ _ d refused)

theorem resolves_verifySyscall (arguments : Nat) :
    Resolves (verifySyscall op arguments place s) := by
  refine resolves_bind (Shape.resolves_require _) fun _ _ => ?_
  refine resolves_bind (Shape.resolves_drop _) fun s _ => ?_
  refine resolves_bind (Shape.resolves_take _) fun taken _ => ?_
  simp only
  split
  · simp [Fault.isUnresolved]
  · simp

theorem resolves_verifyShape (operation : Op) : Resolves (operation.verifyShape place s) := by
  unfold verifyShape
  split
  any_goals simp
  · exact resolves_verifySum Ty.isUnresolved_plus
  · exact resolves_verifySum Ty.isUnresolved_minus
  · exact Contract.resolves_applyTo _
  · exact resolves_verifyLoad _
  · exact Contract.resolves_applyTo _
  · exact resolves_verifyStore _
  · exact resolves_verifySyscall _
  · exact Contract.resolves_applyTo _

end Op

theorem resolves_checkSingleArm (before after : Shape) :
    Resolves (checkSingleArm before after place) := by
  unfold checkSingleArm
  simp only
  split <;> simp [Fault.isUnresolved]

theorem resolves_checkArms (yes no : Shape) : Resolves (checkArms yes no place) := by
  unfold checkArms
  simp only
  split <;> simp [Fault.isUnresolved]

theorem resolves_checkCondition (before after : Shape) :
    Resolves (checkCondition before after place) := by
  unfold checkCondition
  simp only
  split <;> simp [Fault.isUnresolved]

theorem resolves_checkRound (expected after : Shape) :
    Resolves (checkRound p expected after place) := by
  unfold checkRound
  simp only
  split <;> simp [Fault.isUnresolved]

theorem Knowledge.resolves_bindPin : Resolves (k.bindPin p place) := by
  unfold bindPin
  split
  · split
    · rename_i d short
      exact resolves_error.2 (Shape.resolves_pop d short)
    · split <;> simp [Fault.isUnresolved]
  · split
    · simp
    · rename_i d short
      exact resolves_error.2 (Shape.resolves_dropValue _ d short)

/-- A pin whose type is known can be updated for all that concerns names. -/
theorem Knowledge.resolves_updatePin {ty : Ty} (known : k.tyOf p place = .ok ty) :
    Resolves (k.updatePin p place) := by
  unfold updatePin
  rw [known]
  simp only
  split
  · simp
  · rename_i d short
    exact resolves_error.2 (Shape.resolves_dropValue _ d short)

theorem Knowledge.resolves_pushPin {ty : Ty} (known : k.tyOf p place = .ok ty) :
    Resolves (k.pushPin p place) := by
  simp [pushPin, known]

end Resolves

end PinnedStack
