import PinnedStack.Proofs.Tree.Scoped
import PinnedStack.Proofs.Typing.Visits

/-!
# Bodies leave what runtime pins hold as they found it

* `verifyAll_pinNodes` — binding pins notes the types of those without a type of their own, that of
  the first name in front.
* `verifyAll_unpinNodes` — releasing them in order forgets just these.
* `Scoped.sightings_eq` — a well-scoped body that verifies leaves the types of runtime pins alone.
-/

namespace PinnedStack

variable {k after : Knowledge} {p : Pin} {place : Place}

/-! ## Pins of one binding -/

theorem Op.verify_pin (p : Pin) (place : Place) (k : Knowledge) :
    (Node.op (.pin p) place).verify k = k.bindPin p place := rfl

theorem Op.verify_unpin (p : Pin) (place : Place) (k : Knowledge) :
    (Node.op (.unpin p) place).verify k = .ok (k.releasePin p) := rfl

/-- Binding a pin notes its type if it has none of its own. -/
theorem Knowledge.sightings_bindPin (ok : k.bindPin p place = .ok after) :
    (p.ty.isRuntime = false → after.sightings = k.sightings)
      ∧ (p.ty.isRuntime = true → ∃ c rest, k.shape.cells = c :: rest
          ∧ after.sightings = k.sightings.record p.name c.ty) := by
  refine ⟨fun static => ?_, fun runtime => ?_⟩
  · obtain ⟨rest, -, rfl⟩ := (bindPin_eq_ok static).1 ok
    rfl
  · obtain ⟨c, rest, cells, -, rfl⟩ := (bindPin_runtime_eq_ok (Ty.isRuntime_iff.1 runtime)).1 ok
    exact ⟨c, rest, cells, rfl⟩

/-- The names of the pins without a type of their own. -/
def runtimeNames (pins : List Pin) : List String :=
  (pins.filter (·.ty.isRuntime)).map (·.name)

/-- Binding pins notes their types, that of the pin bound last in front. -/
theorem verifyAll_pins {ps : List Pin}
    (ok : verifyAll (ps.map fun p => .op (.pin p) place) k = .ok after) :
    ∃ entries, after.sightings.seen = entries ++ k.sightings.seen
      ∧ entries.map (·.1) = runtimeNames ps.reverse := by
  induction ps generalizing k with
  | nil =>
    cases ok
    exact ⟨[], rfl, rfl⟩
  | cons p ps ih =>
    obtain ⟨next, one, rest⟩ := verifyAll_cons_eq_ok.1 ok
    obtain ⟨entries, seen, names⟩ := ih rest
    obtain ⟨quiet, noted⟩ := Knowledge.sightings_bindPin one
    cases runtime : p.ty.isRuntime with
    | false =>
      refine ⟨entries, by rw [seen, quiet runtime], ?_⟩
      simpa [runtimeNames, runtime] using names
    | true =>
      obtain ⟨c, below, -, same⟩ := noted runtime
      refine ⟨entries ++ [(p.name, c.ty)], by simp [seen, same, Sightings.record], ?_⟩
      simp only [List.map_append, names]
      simp [runtimeNames, runtime]

theorem verifyAll_pinNodes {pins : List Pin}
    (ok : verifyAll (Reader.pinNodes pins place) k = .ok after) :
    ∃ entries, after.sightings.seen = entries ++ k.sightings.seen
      ∧ entries.map (·.1) = runtimeNames pins := by
  simpa using verifyAll_pins ok

theorem verifyAll_unpinNodes {pins : List Pin} {entries seen : List (String × Ty)}
    (held : k.sightings.seen = entries ++ seen) (names : entries.map (·.1) = runtimeNames pins) :
    verifyAll (Reader.unpinNodes pins place) k = .ok { k with sightings := ⟨seen⟩ } := by
  induction pins generalizing k entries with
  | nil =>
    obtain rfl : entries = [] := by simpa [runtimeNames] using names
    obtain ⟨shape, ⟨all⟩⟩ := k
    cases held
    rfl
  | cons p pins ih =>
    simp only [Reader.unpinNodes, List.map_cons, verifyAll, Op.verify_unpin, bind, Except.bind]
    cases runtime : p.ty.isRuntime with
    | false =>
      rw [Knowledge.releasePin_eq runtime]
      exact ih held (by simpa [runtimeNames, runtime] using names)
    | true =>
      cases entries with
      | nil => simp [runtimeNames, runtime] at names
      | cons e entries =>
        simp only [runtimeNames, runtime, List.filter_cons_of_pos, List.map_cons,
          List.cons.injEq] at names
        obtain ⟨name, names⟩ := names
        have released : (k.releasePin p).sightings.seen = entries ++ seen := by
          simp [Knowledge.releasePin, runtime, Sightings.release, held, name]
        have rest := ih released names
        simpa [Knowledge.releasePin, runtime, Reader.unpinNodes] using rest

/-! ## Bodies -/

/-- An operation that neither binds nor releases leaves the types of runtime pins alone. -/
theorem Op.sightings_verify {op : Op} {scope : List Pin} (fits : op.Fits scope)
    (ok : op.verify place k = .ok after) : after.sightings = k.sightings := by
  unfold verify at ok
  split at ok
  · exact fits.elim
  · obtain ⟨_, _, _, _, rfl⟩ := Knowledge.updatePin_eq_ok.1 ok
    rfl
  · obtain ⟨_, _, rfl⟩ := Knowledge.pushPin_eq_ok.1 ok
    rfl
  · exact fits.elim
  · split at ok
    · cases ok
      rfl
    · cases ok

/-- **A well-scoped body leaves the types of runtime pins as it found them.** -/
theorem Scoped.sightings_eq {callees : List Call} {scope : List Pin} {first stop : Nat}
    {nodes : List Node} (h : Scoped callees scope first stop nodes)
    (ok : verifyAll nodes k = .ok after) : after.sightings = k.sightings := by
  induction h generalizing k after with
  | nil =>
    cases ok
    rfl
  | append _ _ left right =>
    obtain ⟨middle, before, rest⟩ := verifyAll_append_eq_ok.1 ok
    exact (right rest).trans (left before)
  | op fits =>
    rw [verifyAll_singleton] at ok
    exact Op.sightings_verify fits ok
  | call =>
    rw [verifyAll_singleton] at ok
    obtain ⟨s, -, rfl⟩ := Node.verify_call_eq_ok.1 ok
    rfl
  | ifTrue _ inner =>
    rw [verifyAll_singleton] at ok
    obtain ⟨s, -, arm, -⟩ := Node.verify_ifTrue_eq_ok.1 ok
    have same := inner arm
    exact same
  | ifFalse _ inner =>
    rw [verifyAll_singleton] at ok
    obtain ⟨s, -, arm, -⟩ := Node.verify_ifFalse_eq_ok.1 ok
    have same := inner arm
    exact same
  | ifElse _ _ left right =>
    rw [verifyAll_singleton] at ok
    obtain ⟨s, afterYes, afterNo, -, yes, no, -, rfl⟩ := Node.verify_ifElse_eq_ok.1 ok
    have before := left yes
    have behind := right no
    exact behind.trans before
  | loop sound _ _ left right =>
    rw [verifyAll_singleton] at ok
    obtain ⟨below, tested, s, round, rest, -, test, -, -, turn, -, -, rfl⟩ :=
      (Node.verify_loop_eq_ok sound.isRuntime_eq_false).1 ok
    have before := left test
    have behind := right turn
    exact behind.trans before
  | bind fits laid _ inner =>
    rw [List.append_assoc] at ok
    obtain ⟨bound, pinned, ok⟩ := verifyAll_append_eq_ok.1 ok
    obtain ⟨last, body, released⟩ := verifyAll_append_eq_ok.1 ok
    obtain ⟨entries, seen, names⟩ := verifyAll_pinNodes pinned
    rw [verifyAll_unpinNodes ((inner body).symm ▸ seen) names] at released
    cases released
    rfl

/-- A body that matches its contract leaves the types of runtime pins as it found them. -/
theorem Func.sightings_eq {f : Func} {callees : List Call} {first stop : Nat}
    (h : Scoped callees [] first stop f.body) {sightings last : Sightings}
    (ok : f.verify sightings = .ok last) : last = sightings := by
  simp only [Func.verify, Except.bind_eq_ok] at ok
  obtain ⟨after, body, ok⟩ := ok
  split at ok
  · cases ok
    exact h.sightings_eq body
  · cases ok

end PinnedStack
