import PinnedStack.Proofs.Emission.Whole
import PinnedStack.Proofs.Typing.Separate

/-!
# Verification counts the words of the code

* `Moves` — code that finds the words it takes and turns one number of words into another.
* `Op.Turns.moves`, `Op.moves_verify` — the code of an operation moves the words of its typing rule.
* `Sightings.Narrow` — runtime pins hold single words, so that a pin has as many slots as words.
* `Counted` — the code of nodes finds what it takes, and its levels are the heights of the stacks
  that verification met. `Scoped.counted` — well-scoped bodies.
* `Occurs.visited` — verification visits every node of what it accepts.
-/

namespace PinnedStack

open Asm

/-! ## Code -/

/-- Every instruction of code finds the words it needs, and `h` words become `j`. -/
structure Moves (is : List Instr) (h j : Nat) : Prop where
  steady : SteadyCode is h
  after : codeAfter is h = j

namespace Moves

variable {is js : List Instr} {i : Instr} {h j l : Nat}

theorem nil : Moves [] h h := ⟨trivial, rfl⟩

theorem cons (enough : i.needs ≤ h) (rest : Moves is (i.levelAfter h) j) : Moves (i :: is) h j :=
  ⟨⟨enough, rest.steady⟩, rest.after⟩

theorem pop {target : Operand} (rest : Moves is h j) : Moves (.pop target :: is) (h + 1) j :=
  cons (Nat.le_add_left 1 h) rest

theorem push {source : Operand} (away : source.reach = 0) (rest : Moves is (h + 1) j) :
    Moves (.push source :: is) h j :=
  cons (Nat.le_trans (Nat.le_of_eq away) (Nat.zero_le h)) rest

theorem still (away : i.needs = 0) (same : i.levelAfter h = h) (rest : Moves is h j) :
    Moves (i :: is) h j :=
  cons (Nat.le_trans (Nat.le_of_eq away) (Nat.zero_le h)) (same.symm ▸ rest)

theorem append (first : Moves is h j) (second : Moves js j l) : Moves (is ++ js) h l := by
  obtain ⟨steady, rfl⟩ := first
  refine ⟨steadyCode_append.2 ⟨steady, second.steady⟩, ?_⟩
  rw [codeAfter_append]
  exact second.after

theorem pops (targets : List Operand) (h : Nat) :
    Moves (targets.map .pop) (h + targets.length) h := by
  refine ⟨steadyCode_pops (Nat.le_add_left ..), ?_⟩
  rw [codeAfter_pops, Nat.add_sub_cancel]

theorem pushes (sources : List Operand) (away : ∀ s ∈ sources, s.reach = 0) (h : Nat) :
    Moves (sources.map .push) h (h + sources.length) := by
  induction sources generalizing h with
  | nil => exact nil
  | cons s sources ih =>
    obtain ⟨here, rest⟩ := List.forall_mem_cons.1 away
    have next := ih rest (h + 1)
    rw [Nat.add_assoc, Nat.add_comm 1] at next
    exact push here next

end Moves

theorem Pin.moves_storeCode (p : Pin) (h : Nat) : Moves p.storeCode (h + p.ty.width) h := by
  refine ⟨Pin.steady_storeCode (Nat.le_add_left ..), ?_⟩
  rw [codeAfter_storeCode, Nat.add_sub_cancel]

theorem Pin.moves_pushCode (p : Pin) (h : Nat) : Moves p.pushCode h (h + p.ty.width) :=
  ⟨p.steady_pushCode h, codeAfter_pushCode p h⟩

theorem moves_pushNumber (value : Int64) (h : Nat) : Moves (pushNumber value) h (h + 1) := by
  unfold pushNumber
  split
  · exact .push rfl .nil
  · exact .still rfl rfl (.push rfl .nil)

theorem moves_pushAddress (label : String) (h : Nat) : Moves (pushAddress label) h (h + 1) :=
  .still rfl rfl (.push rfl .nil)

theorem Binary.moves_code (op : Binary) (h : Nat) : Moves op.code (h + 2) (h + 1) := by
  have combine : Moves op.combine h h := by
    cases op with
    | div => exact .still rfl rfl (.still rfl rfl .nil)
    | mod => exact .still rfl rfl (.still rfl rfl (.still rfl rfl .nil))
    | shl => exact .still rfl rfl (.still rfl rfl .nil)
    | shr => exact .still rfl rfl (.still rfl rfl .nil)
    | add => exact .still rfl rfl .nil
    | sub => exact .still rfl rfl .nil
    | mul => exact .still rfl rfl .nil
    | and => exact .still rfl rfl .nil
    | or => exact .still rfl rfl .nil
    | xor => exact .still rfl rfl .nil
    | _ => exact .still rfl rfl (.still rfl rfl (.still rfl rfl .nil))
  have takes : Moves [.popReg .rbx, .popReg .rax] (h + 2) h := .pop (.pop .nil)
  exact (takes.append combine).append (.push rfl .nil)

/-! ## Loads and stores -/

/-- The words that an access moves. -/
def Access.width : Access → Nat
  | word => 1
  | byte => 1
  | record r => r.fields.length

theorem Ty.width_of_isPointer {t : Ty} (h : t.isPointer = true) : t.width = 1 := by
  rw [← length_words, words_of_isPointer h, List.length_singleton]

theorem Ty.width_plus {a b t : Ty} (ok : a.plus b = .ok t) : t.width = 1 := by
  rcases Ty.plus_eq_ok.1 ok with ⟨pointer, -, rfl⟩ | ⟨-, pointer, rfl⟩ | ⟨-, -, rfl⟩
  · exact Ty.width_of_isPointer pointer
  · exact Ty.width_of_isPointer pointer
  · rfl

theorem Ty.width_minus {a b t : Ty} (ok : a.minus b = .ok t) : t.width = 1 := by
  rcases Ty.minus_eq_ok.1 ok with ⟨-, -, rfl⟩ | ⟨pointer, -, rfl⟩ | ⟨-, -, rfl⟩
  · rfl
  · exact Ty.width_of_isPointer pointer
  · rfl

theorem Ty.width_ofRecord (r : Record) : (Ty.ofRecord r).width = r.fields.length := by
  unfold ofRecord
  split
  · rename_i only fields
    rw [fields]
    rfl
  · rfl

/-- An access moves as many words as the value has that it leads to. -/
theorem width_pointee {op : String} {address ty : Ty} {access : Access} {place : Place}
    (ok : pointee op address access place = .ok ty) : ty.width = access.width := by
  unfold pointee at ok
  simp only at ok
  split at ok
  · cases ok
  · split at ok
    · cases ok
      rfl
    · cases ok
      rfl
    · split at ok
      · rename_i one
        cases ok
        exact one
      · cases ok
    · cases ok
      exact Ty.width_ofRecord _
    · split at ok
      · cases ok
        exact Ty.width_ofRecord _
      · cases ok

theorem Access.moves_loadCode (access : Access) (h : Nat) :
    Moves access.loadCode h (h + access.width) := by
  cases access with
  | word => exact .push rfl .nil
  | byte => exact .still rfl rfl (.push rfl .nil)
  | record r =>
    have pushes := Moves.pushes (r.layout.map fun f => .qword (.offset .rax f.offset))
      (by simp [Operand.reach, Mem.reach]) h
    simpa [loadCode, width, Function.comp_def] using pushes

theorem Access.moves_storeCode (access : Access) (h : Nat) :
    Moves access.storeCode (h + access.width) h := by
  cases access with
  | word => exact .pop (.still rfl rfl .nil)
  | byte => exact .pop (.still rfl rfl .nil)
  | record r =>
    have pops := Moves.pops (r.layout.reverse.map fun f => .qword (.offset .rax f.offset)) h
    simpa [storeCode, width, Function.comp_def] using pops

/-! ## Operations -/

/-- The code of an operation of fixed effect moves the words of its contract. -/
theorem Op.moves_fixed {op : Op} {scope : List Pin} (fits : op.Fits scope) {contract : Contract}
    (effect : op.contract? = some contract) (h : Nat) :
    Moves op.code (h + contract.takes) (h + contract.leaves) := by
  cases op with
  | number value =>
    cases effect
    exact moves_pushNumber value h
  | bool _ =>
    cases effect
    exact .push rfl .nil
  | string label length =>
    cases effect
    exact (moves_pushNumber _ h).append (moves_pushAddress label (h + 1))
  | cstring label =>
    cases effect
    exact moves_pushAddress label h
  | memory label ty =>
    cases effect
    have single := Ty.width_of_isPointer fits.1
    have push := moves_pushAddress label h
    simpa [Contract.takes, Contract.leaves, single, Op.code] using push
  | print =>
    cases effect
    exact .pop (.still rfl rfl .nil)
  | binary op =>
    cases op with
    | add => cases effect
    | sub => cases effect
    | _ =>
      cases effect
      exact Binary.moves_code _ h
  | not =>
    cases effect
    exact .pop (.still rfl rfl (.still rfl rfl (.still rfl rfl (.push rfl .nil))))
  | streq =>
    cases effect
    exact .pop (.pop (.pop (.pop (.still rfl rfl (.push rfl .nil)))))
  | load access =>
    cases access with
    | byte =>
      cases effect
      exact .pop (Access.byte.moves_loadCode h)
    | _ => cases effect
  | store access =>
    cases access with
    | byte =>
      cases effect
      exact .pop (Access.byte.moves_storeCode h)
    | _ => cases effect
  | field r f =>
    cases effect
    simp only [Op.code]
    split
    · exact .nil
    · exact .cons (Nat.le_add_left 1 h) .nil
  | cast kind => cases kind <;> cases effect <;> exact .nil
  | _ => cases effect

/-- **The code of an operation on no pin moves the words of its typing rule.** -/
theorem Op.Turns.moves {op : Op} {place : Place} {s after : Shape} {scope : List Pin}
    (turns : op.Turns place s after) (fits : op.Fits scope) : Moves op.code s.size after.size := by
  cases turns with
  | dup => exact .cons (Nat.le_add_left 1 _) .nil
  | drop => exact .cons (Nat.le_add_left 1 _) .nil
  | swap => exact .pop (.pop (.push rfl (.push rfl .nil)))
  | copySecond => exact .cons (Nat.le_add_left 2 _) .nil
  | rot => exact .pop (.pop (.pop (.push rfl (.push rfl (.push rfl .nil)))))
  | @add a b rest ty rule =>
    rw [Shape.size_push, Ty.width_plus rule]
    exact Binary.add.moves_code rest.length
  | @sub a b rest ty rule =>
    rw [Shape.size_push, Ty.width_minus rule]
    exact Binary.sub.moves_code rest.length
  | @load access c rest ty wide leads =>
    rw [Shape.size_push, width_pointee leads]
    exact .pop (access.moves_loadCode rest.length)
  | @store access c cells rest ty wide leads taken =>
    have count : cells.length = access.width := by
      rw [taken.length_eq, List.length_reverse, Ty.length_words, width_pointee leads]
    have size : (⟨c :: (cells ++ rest)⟩ : Shape).size = rest.length + access.width + 1 := by
      simp only [Shape.size, List.length_cons, List.length_append, count]
      omega
    rw [size]
    exact .pop (access.moves_storeCode rest.length)
  | @syscall arguments c cells rest _ count =>
    have registers : (syscallRegisters.take arguments).length = arguments :=
      List.length_take_of_le fits
    have size : (⟨c :: (cells ++ rest)⟩ : Shape).size = rest.length + arguments + 1 := by
      simp only [Shape.size, List.length_cons, List.length_append, count]
      omega
    have pops := Moves.pops ((syscallRegisters.take arguments).map .reg) rest.length
    rw [List.map_map, List.length_map, registers] at pops
    rw [size, Shape.size_push]
    exact .pop (pops.append (.still rfl rfl (.push rfl .nil)))
  | @fixed op contract cells rest effect taken =>
    have size : (⟨cells.reverse ++ rest⟩ : Shape).size = rest.length + contract.takes := by
      simp only [Shape.size, List.length_append, List.length_reverse, taken.length_eq]
      exact Nat.add_comm ..
    rw [size, Shape.size_pushAll]
    exact Op.moves_fixed fits effect rest.length

/-! ## Pins -/

/-- Runtime pins hold single words. -/
def Sightings.Narrow (sightings : Sightings) : Prop := ∀ e ∈ sightings.seen, e.2.width = 1

section Pins

variable {s rest : Shape} {op : String} {k after : Knowledge} {p : Pin} {place : Place} {t : Ty}

theorem Shape.size_drop (ok : s.drop op t place = .ok rest) : s.size = rest.size + 1 := by
  obtain ⟨c, cells, -⟩ := drop_eq_ok.1 ok
  simp [size, cells]

theorem Shape.size_dropValue (ok : s.dropValue op t place = .ok rest) :
    s.size = rest.size + t.width := by
  obtain ⟨top, cells, fits⟩ := dropValue_eq_ok.1 ok
  have count := fits.length_eq
  rw [List.length_reverse, Ty.length_words] at count
  simp only [size, cells, List.length_append, count]
  exact Nat.add_comm ..

theorem Contract.size_applyTo {c : Contract} (ok : c.applyTo s op place = .ok rest) :
    c.takes ≤ s.size ∧ s.size - c.takes + c.leaves = rest.size := by
  obtain ⟨top, below, cells, fits, rfl⟩ := applyTo_eq_ok.1 ok
  have size : s.size = below.length + c.takes := by
    simp only [Shape.size, cells, List.length_append, List.length_reverse, fits.length_eq]
    exact Nat.add_comm ..
  rw [Shape.size_pushAll, size, Nat.add_sub_cancel]
  exact ⟨Nat.le_add_left .., rfl⟩

/-- The value of a pin has as many words as the pin has slots. -/
theorem Sightings.Narrow.width_tyOf (narrow : k.sightings.Narrow) (ok : k.tyOf p place = .ok t) :
    t.width = p.ty.width := by
  cases runtime : p.ty.isRuntime with
  | false =>
    rw [Knowledge.tyOf_eq_ok runtime] at ok
    cases ok
    rfl
  | true =>
    rw [Ty.isRuntime_iff.1 runtime]
    simp only [Knowledge.tyOf, runtime, if_true, Sightings.current?] at ok
    cases found : k.sightings.seen.find? (·.1 == p.name) with
    | none => simp [found] at ok
    | some e =>
      simp only [found, Option.map_some] at ok
      cases ok
      exact narrow e (List.mem_of_find?_eq_some found)

theorem Knowledge.size_bindPin (ok : k.bindPin p place = .ok after) :
    k.shape.size = after.shape.size + p.ty.width := by
  cases runtime : p.ty.isRuntime with
  | false =>
    obtain ⟨rest, top, rfl⟩ := (bindPin_eq_ok runtime).1 ok
    exact Shape.size_dropValue top
  | true =>
    have kind := Ty.isRuntime_iff.1 runtime
    obtain ⟨c, rest, cells, -, rfl⟩ := (bindPin_runtime_eq_ok kind).1 ok
    simp [Shape.size, cells, kind, Ty.width]

theorem Sightings.Narrow.bindPin (narrow : k.sightings.Narrow) (ok : k.bindPin p place = .ok after) :
    after.sightings.Narrow := by
  cases runtime : p.ty.isRuntime with
  | false =>
    obtain ⟨rest, top, rfl⟩ := (Knowledge.bindPin_eq_ok runtime).1 ok
    exact narrow
  | true =>
    have kind := Ty.isRuntime_iff.1 runtime
    obtain ⟨c, rest, -, concrete, rfl⟩ := (Knowledge.bindPin_runtime_eq_ok kind).1 ok
    refine List.forall_mem_cons.2 ⟨?_, narrow⟩
    show c.ty.width = 1
    cases word : c.ty with
    | record _ =>
      rw [word] at concrete
      cases concrete
    | _ => rfl

theorem Sightings.Narrow.size_updatePin (narrow : k.sightings.Narrow)
    (ok : k.updatePin p place = .ok after) : k.shape.size = after.shape.size + p.ty.width := by
  obtain ⟨ty, rest, known, top, rfl⟩ := Knowledge.updatePin_eq_ok.1 ok
  rw [← narrow.width_tyOf known]
  exact Shape.size_dropValue top

theorem Sightings.Narrow.size_pushPin (narrow : k.sightings.Narrow)
    (ok : k.pushPin p place = .ok after) : after.shape.size = k.shape.size + p.ty.width := by
  obtain ⟨ty, known, rfl⟩ := Knowledge.pushPin_eq_ok.1 ok
  rw [← narrow.width_tyOf known]
  exact Shape.size_push ..

theorem Knowledge.shape_releasePin (k : Knowledge) (p : Pin) : (k.releasePin p).shape = k.shape := by
  unfold releasePin
  split <;> rfl

/-- **The code of an operation moves the words of its typing rule.** -/
theorem Op.moves_verify {op : Op} {scope : List Pin} (fits : op.Fits scope)
    (narrow : k.sightings.Narrow) (ok : op.verify place k = .ok after) :
    Moves op.code k.shape.size after.shape.size := by
  cases pinning : op.isPinning with
  | false =>
    obtain ⟨s, turns, rfl⟩ := (Op.verify_eq_ok pinning).1 ok
    exact turns.moves fits
  | true =>
    cases op with
    | pinned p =>
      rw [narrow.size_pushPin ok]
      exact p.moves_pushCode _
    | update p =>
      rw [narrow.size_updatePin ok]
      exact p.moves_storeCode _
    | pin _ => exact fits.elim
    | unpin _ => exact fits.elim
    | _ => cases pinning

end Pins

/-! ## Nodes -/

theorem Occurs.append_left {n : Node} {h l j : Nat} {xs : List Node} (occurs : Occurs n h xs l j)
    (ys : List Node) : Occurs n h (xs ++ ys) l j := by
  induction occurs with
  | here => exact .here
  | later _ ih => exact .later ih
  | ifTrue inner => exact .ifTrue inner
  | ifFalse inner => exact .ifFalse inner
  | yes inner => exact .yes inner
  | no inner => exact .no inner
  | condition inner => exact .condition inner
  | body inner => exact .body inner

theorem Occurs.append_right {n : Node} {h l j : Nat} {ys : List Node} (xs : List Node)
    (occurs : Occurs n h ys (levelOf xs l) j) : Occurs n h (xs ++ ys) l (extentOf xs + j) := by
  induction xs generalizing l with
  | nil =>
    rw [extentOf_nil, Nat.zero_add]
    exact occurs
  | cons m xs ih =>
    rw [← List.singleton_append, extentOf_append, Nat.add_assoc]
    exact .later (ih occurs)

/-- What verification from `k` to `after` says of the code of nodes: it finds the words that it takes,
and its levels are the heights of the stacks that verification met. -/
structure Counted (nodes : List Node) (k after : Knowledge) : Prop where
  steady : SteadyAll nodes k.shape.size
  level : levelOf nodes k.shape.size = after.shape.size
  visits : ∀ offset, ∀ v ∈ visitsAll nodes offset k, ∃ j, v.offset = offset + j
    ∧ Occurs v.node v.known.shape.size nodes k.shape.size j

namespace Counted

variable {k middle after : Knowledge} {place : Place} {label : Nat}

theorem nil : Counted [] k k := ⟨trivial, rfl, by simp [visitsAll]⟩

theorem append {xs ys : List Node} (ok : verifyAll xs k = .ok middle) (hx : Counted xs k middle)
    (hy : Counted ys middle after) : Counted (xs ++ ys) k after := by
  refine ⟨steadyAll_append.2 ⟨hx.steady, hx.level ▸ hy.steady⟩, ?_, fun offset v mem => ?_⟩
  · rw [levelOf_append, hx.level]
    exact hy.level
  · rw [visitsAll_append, ok] at mem
    rcases List.mem_append.1 mem with mem | mem
    · obtain ⟨j, eq, occurs⟩ := hx.visits offset v mem
      exact ⟨j, eq, occurs.append_left ys⟩
    · obtain ⟨j, eq, occurs⟩ := hy.visits _ v mem
      refine ⟨extentOf xs + j, by rw [eq, Nat.add_assoc], ?_⟩
      exact .append_right xs (hx.level ▸ occurs)

theorem singleton {n : Node} (steady : n.Steady k.shape.size)
    (level : n.after k.shape.size = after.shape.size)
    (inner : ∀ offset, ∀ v ∈ n.visits offset k, v = ⟨n, k, offset⟩ ∨ ∃ j, v.offset = offset + j
      ∧ Occurs v.node v.known.shape.size [n] k.shape.size j) : Counted [n] k after := by
  refine ⟨⟨steady, trivial⟩, level, fun offset v mem => ?_⟩
  rw [visitsAll_singleton] at mem
  rcases inner offset v mem with rfl | inside
  · exact ⟨0, rfl, .here⟩
  · exact inside

theorem op {op : Op} (moves : Moves op.code k.shape.size after.shape.size) :
    Counted [.op op place] k after :=
  singleton moves.steady moves.after fun _ _ mem => .inl (List.mem_singleton.1 mem)

theorem pins (ps : List Pin) (narrow : k.sightings.Narrow)
    (ok : verifyAll (ps.map fun p => .op (.pin p) place) k = .ok after) :
    Counted (ps.map fun p => .op (.pin p) place) k after ∧ after.sightings.Narrow := by
  induction ps generalizing k with
  | nil =>
    cases ok
    exact ⟨nil, narrow⟩
  | cons p ps ih =>
    obtain ⟨next, one, rest⟩ := verifyAll_cons_eq_ok.1 ok
    rw [Op.verify_pin] at one
    obtain ⟨tail, last⟩ := ih (narrow.bindPin one) rest
    have first : Counted [.op (.pin p) place] k next := by
      refine op ?_
      rw [Knowledge.size_bindPin one]
      exact p.moves_storeCode _
    exact ⟨first.append (by rwa [verifyAll_singleton]) tail, last⟩

theorem unpins (ps : List Pin)
    (ok : verifyAll (ps.map fun p => .op (.unpin p) place) k = .ok after) :
    Counted (ps.map fun p => .op (.unpin p) place) k after := by
  induction ps generalizing k with
  | nil =>
    cases ok
    exact nil
  | cons p ps ih =>
    obtain ⟨next, one, rest⟩ := verifyAll_cons_eq_ok.1 ok
    have first : Counted [.op (.unpin p) place] k next := by
      rw [Op.verify_unpin] at one
      cases one
      refine op ?_
      rw [k.shape_releasePin]
      exact .nil
    exact first.append (by rwa [verifyAll_singleton]) (ih rest)

/-- An arm that is alone leaves as many words as it starts with. -/
theorem arm_steady {body : List Node} {s : Shape}
    (arm : Counted body { k with shape := s } after) (top : k.shape.drop "if" .number place = .ok s)
    (same : s.Matches after.shape) :
    1 ≤ k.shape.size ∧ SteadyAll body (k.shape.size - 1)
      ∧ levelOf body (k.shape.size - 1) = k.shape.size - 1 := by
  rw [Shape.size_drop top, Nat.add_sub_cancel]
  exact ⟨Nat.le_add_left .., arm.steady, arm.level.trans same.size_eq.symm⟩

theorem ifTrue {body : List Node} {s : Shape} (top : k.shape.drop "if" .number place = .ok s)
    (arm : Counted body { k with shape := s } after) (same : s.Matches after.shape) :
    Counted [.ifTrue body label place] k after := by
  have size : k.shape.size - 1 = s.size := by rw [Shape.size_drop top, Nat.add_sub_cancel]
  refine singleton (arm.arm_steady top same) (size.trans same.size_eq) fun offset v mem => ?_
  simp only [Node.visits, top] at mem
  rcases List.mem_cons.1 mem with rfl | mem
  · exact .inl rfl
  · obtain ⟨j, eq, occurs⟩ := arm.visits _ v mem
    exact .inr ⟨3 + j, by rw [eq, Nat.add_assoc], .ifTrue (size.symm ▸ occurs)⟩

theorem ifFalse {body : List Node} {s : Shape} (top : k.shape.drop "if" .number place = .ok s)
    (arm : Counted body { k with shape := s } after) (same : s.Matches after.shape) :
    Counted [.ifFalse body label place] k after := by
  have size : k.shape.size - 1 = s.size := by rw [Shape.size_drop top, Nat.add_sub_cancel]
  refine singleton (arm.arm_steady top same) (size.trans same.size_eq) fun offset v mem => ?_
  simp only [Node.visits, top] at mem
  rcases List.mem_cons.1 mem with rfl | mem
  · exact .inl rfl
  · obtain ⟨j, eq, occurs⟩ := arm.visits _ v mem
    exact .inr ⟨3 + j, by rw [eq, Nat.add_assoc], .ifFalse (size.symm ▸ occurs)⟩

theorem ifElse {yes no : List Node} {s : Shape} {afterYes afterNo : Knowledge}
    (top : k.shape.drop "if" .number place = .ok s)
    (ok : verifyAll yes { k with shape := s } = .ok afterYes)
    (left : Counted yes { k with shape := s } afterYes)
    (right : Counted no { afterYes with shape := s } afterNo)
    (same : afterYes.shape.Matches afterNo.shape) :
    Counted [.ifElse yes no label place] k { afterNo with shape := afterYes.shape } := by
  have size : k.shape.size - 1 = s.size := by rw [Shape.size_drop top, Nat.add_sub_cancel]
  refine singleton ⟨?_, ?_, ?_, ?_⟩ ?_ fun offset v mem => ?_
  · rw [Shape.size_drop top]
    exact Nat.le_add_left ..
  · rw [size]
    exact left.steady
  · rw [size]
    exact right.steady
  · rw [size]
    exact right.level.trans (same.size_eq.symm.trans left.level.symm)
  · rw [Node.after, size]
    exact left.level
  · simp only [Node.visits, top, ok] at mem
    rcases List.mem_cons.1 mem with rfl | mem
    · exact .inl rfl
    rcases List.mem_append.1 mem with mem | mem
    · obtain ⟨j, eq, occurs⟩ := left.visits _ v mem
      exact .inr ⟨3 + j, by rw [eq, Nat.add_assoc], .yes (size.symm ▸ occurs)⟩
    · obtain ⟨j, eq, occurs⟩ := right.visits _ v mem
      exact .inr ⟨3 + extentOf yes + 1 + j, by rw [eq]; omega, .no (size.symm ▸ occurs)⟩

theorem loop {p : Pin} {condition body : List Node} {below s left : Shape} {tested round : Knowledge}
    (static : p.ty.isRuntime = false)
    (top : k.shape.dropValue (Knowledge.pinning p) p.ty place = .ok below)
    (test : verifyAll condition { k with shape := below.push p.ty place } = .ok tested)
    (number : tested.shape.drop "loop condition" .number place = .ok s) (same : below.Matches s)
    (again : (below.push p.ty place).Matches round.shape)
    (next : round.shape.dropValue (Knowledge.pinning p) p.ty place = .ok left)
    (testing : Counted condition { k with shape := below.push p.ty place } tested)
    (turning : Counted body { tested with shape := s } round) :
    Counted [.loop p condition body label place] k { round with shape := left.push p.ty place } := by
  have whole := Shape.size_dropValue top
  have size : k.shape.size - p.ty.width = below.size := by rw [whole, Nat.add_sub_cancel]
  have start : (below.push p.ty place).size = below.size + p.ty.width := Shape.size_push ..
  have flag := Shape.size_drop number
  have last := Shape.size_dropValue next
  have round_size := again.size_eq
  have tested_level := testing.level
  have round_level := turning.level
  simp only [start] at tested_level round_size
  refine singleton ⟨?_, ?_, ?_, ?_, ?_⟩ ?_ fun offset v mem => ?_
  · omega
  · rw [size, ← start]
    exact testing.steady
  · rw [size, tested_level, flag, same.size_eq]
  · rw [size, same.size_eq]
    exact turning.steady
  · rw [size, same.size_eq, round_level]
    omega
  · simp only [Node.after, Shape.size_push]
    omega
  · simp only [Node.visits, Knowledge.enter_of_dropValue static top, test,
      Knowledge.proceed_of_matches { k with shape := below } number same] at mem
    rcases List.mem_cons.1 mem with rfl | mem
    · exact .inl rfl
    rcases List.mem_append.1 mem with mem | mem
    · obtain ⟨j, eq, occurs⟩ := testing.visits _ v mem
      refine .inr ⟨2 * p.ty.width + j, by rw [eq, Nat.add_assoc], .condition ?_⟩
      rw [size, ← start]
      exact occurs
    · obtain ⟨j, eq, occurs⟩ := turning.visits _ v mem
      refine .inr ⟨2 * p.ty.width + extentOf condition + 3 + j, by rw [eq]; omega, .body ?_⟩
      rw [size, same.size_eq]
      exact occurs

end Counted

/-- **Verification counts the words of the code** of a well-scoped body. -/
theorem Scoped.counted {callees : List Call} {scope : List Pin} {first stop : Nat}
    {nodes : List Node} {k after : Knowledge} (h : Scoped callees scope first stop nodes)
    (narrow : k.sightings.Narrow) (ok : verifyAll nodes k = .ok after) : Counted nodes k after := by
  induction h generalizing k after with
  | nil =>
    cases ok
    exact .nil
  | append left _ ihl ihr =>
    obtain ⟨middle, before, rest⟩ := verifyAll_append_eq_ok.1 ok
    exact (ihl narrow before).append before (ihr (left.sightings_eq before ▸ narrow) rest)
  | op fits =>
    rw [verifyAll_singleton] at ok
    exact .op (Op.moves_verify fits narrow ok)
  | call =>
    rw [verifyAll_singleton] at ok
    obtain ⟨s, done, rfl⟩ := Node.verify_call_eq_ok.1 ok
    obtain ⟨enough, left⟩ := Contract.size_applyTo done
    exact .singleton enough left fun _ _ mem => .inl (List.mem_singleton.1 mem)
  | ifTrue _ ih =>
    rw [verifyAll_singleton] at ok
    obtain ⟨s, top, arm, same⟩ := Node.verify_ifTrue_eq_ok.1 ok
    exact .ifTrue top (ih narrow arm) same
  | ifFalse _ ih =>
    rw [verifyAll_singleton] at ok
    obtain ⟨s, top, arm, same⟩ := Node.verify_ifFalse_eq_ok.1 ok
    exact .ifFalse top (ih narrow arm) same
  | ifElse left _ ihl ihr =>
    rw [verifyAll_singleton] at ok
    obtain ⟨s, afterYes, afterNo, top, yes, no, same, rfl⟩ := Node.verify_ifElse_eq_ok.1 ok
    have narrowYes : afterYes.sightings.Narrow := left.sightings_eq yes ▸ narrow
    exact .ifElse top yes (ihl narrow yes) (ihr narrowYes no) same
  | loop sound left _ ihl ihr =>
    rw [verifyAll_singleton] at ok
    have static := sound.isRuntime_eq_false
    obtain ⟨below, tested, s, round, rest, top, test, number, same, turn, again, next, rfl⟩ :=
      (Node.verify_loop_eq_ok static).1 ok
    have narrowTested : tested.sightings.Narrow := left.sightings_eq test ▸ narrow
    exact .loop static top test number same again next (ihl narrow test) (ihr narrowTested turn)
  | bind _ _ _ ih =>
    rw [List.append_assoc] at ok ⊢
    obtain ⟨bound, pinned, ok⟩ := verifyAll_append_eq_ok.1 ok
    obtain ⟨last, body, released⟩ := verifyAll_append_eq_ok.1 ok
    obtain ⟨pins, narrowBound⟩ := Counted.pins _ narrow pinned
    exact pins.append pinned ((ih narrowBound body).append body (.unpins _ released))

/-! ## Nothing is left out -/

theorem Node.mem_visits (n : Node) (offset : Nat) (k : Knowledge) :
    ⟨n, k, offset⟩ ∈ n.visits offset k := by
  cases n <;> simp only [Node.visits, List.mem_cons, true_or]

theorem mem_visitsAll_cons {n : Node} {offset : Nat} {k : Knowledge} {v : Visit}
    (mem : v ∈ n.visits offset k) (ns : List Node) : v ∈ visitsAll (n :: ns) offset k := by
  rw [visitsAll]
  exact List.mem_append_left _ mem

/-- Verification visits every node of what it accepts, each where it stands. -/
theorem Occurs.visited {n : Node} {h l j : Nat} {nodes : List Node} (occurs : Occurs n h nodes l j)
    {k after : Knowledge} (ok : verifyAll nodes k = .ok after) (offset : Nat) :
    ∃ v ∈ visitsAll nodes offset k, v.node = n ∧ v.offset = offset + j := by
  induction occurs generalizing k after offset with
  | here => exact ⟨⟨n, k, offset⟩, mem_visitsAll_cons (n.mem_visits offset k) _, rfl, rfl⟩
  | @later m _ _ _ _ ih =>
    obtain ⟨next, one, rest⟩ := verifyAll_cons_eq_ok.1 ok
    obtain ⟨v, mem, node, eq⟩ := ih rest (offset + (instrsOf m.lines).length)
    have extent : extentOf [m] = (instrsOf m.lines).length := extentOf_cons m []
    refine ⟨v, ?_, node, by rw [eq, extent, Nat.add_assoc]⟩
    rw [visitsAll, one]
    exact List.mem_append_right _ mem
  | ifTrue _ ih =>
    obtain ⟨_, one, _⟩ := verifyAll_cons_eq_ok.1 ok
    obtain ⟨s, top, arm, _⟩ := Node.verify_ifTrue_eq_ok.1 one
    obtain ⟨v, mem, node, eq⟩ := ih arm (offset + 3)
    refine ⟨v, mem_visitsAll_cons ?_ _, node, by rw [eq, Nat.add_assoc]⟩
    rw [Node.visits, top]
    exact .tail _ mem
  | ifFalse _ ih =>
    obtain ⟨_, one, _⟩ := verifyAll_cons_eq_ok.1 ok
    obtain ⟨s, top, arm, _⟩ := Node.verify_ifFalse_eq_ok.1 one
    obtain ⟨v, mem, node, eq⟩ := ih arm (offset + 3)
    refine ⟨v, mem_visitsAll_cons ?_ _, node, by rw [eq, Nat.add_assoc]⟩
    rw [Node.visits, top]
    exact .tail _ mem
  | yes _ ih =>
    obtain ⟨_, one, _⟩ := verifyAll_cons_eq_ok.1 ok
    obtain ⟨s, _, _, top, yes, _⟩ := Node.verify_ifElse_eq_ok.1 one
    obtain ⟨v, mem, node, eq⟩ := ih yes (offset + 3)
    refine ⟨v, mem_visitsAll_cons ?_ _, node, by rw [eq, Nat.add_assoc]⟩
    rw [Node.visits, top]
    exact .tail _ (List.mem_append_left _ mem)
  | @no arm _ _ _ _ _ _ _ ih =>
    obtain ⟨_, one, _⟩ := verifyAll_cons_eq_ok.1 ok
    obtain ⟨s, _, _, top, yes, no, _⟩ := Node.verify_ifElse_eq_ok.1 one
    obtain ⟨v, mem, node, eq⟩ := ih no (offset + 4 + extentOf arm)
    refine ⟨v, mem_visitsAll_cons ?_ _, node, by rw [eq]; omega⟩
    rw [Node.visits, top]
    refine .tail _ (List.mem_append_right _ ?_)
    rw [yes]
    exact mem
  | @condition p _ _ _ _ _ _ _ _ ih =>
    obtain ⟨_, one, _⟩ := verifyAll_cons_eq_ok.1 ok
    obtain ⟨bound, start, _, _, _, _, _, _, bind, push, test, _⟩ := Node.verify_loop_iff.1 one
    obtain ⟨v, mem, node, eq⟩ := ih test (offset + 2 * p.ty.width)
    refine ⟨v, mem_visitsAll_cons ?_ _, node, by rw [eq, Nat.add_assoc]⟩
    rw [Node.visits, Knowledge.enter_eq_ok.2 ⟨bind, push⟩]
    exact .tail _ (List.mem_append_left _ mem)
  | @body p condition _ _ _ _ _ _ _ ih =>
    obtain ⟨_, one, _⟩ := verifyAll_cons_eq_ok.1 ok
    obtain ⟨bound, start, tested, s, _, _, _, _, bind, push, test, number, same, turn, _⟩ :=
      Node.verify_loop_iff.1 one
    obtain ⟨v, mem, node, eq⟩ := ih turn (offset + 2 * p.ty.width + extentOf condition + 3)
    refine ⟨v, mem_visitsAll_cons ?_ _, node, by rw [eq]; omega⟩
    rw [Node.visits, Knowledge.enter_eq_ok.2 ⟨bind, push⟩]
    refine .tail _ (List.mem_append_right _ ?_)
    rw [test]
    simp only [bound.proceed_of_matches number same]
    exact mem

/-! ## Programs -/

/-- The visits that verifying a function on its own makes. -/
def Func.visits (f : Func) : List Visit :=
  visitsAll f.body 0 ⟨.ofTys f.contract.inputs f.place, .empty⟩

theorem Shape.size_ofTys (ts : List Ty) (origin : Place) :
    (ofTys ts origin).size = (ts.flatMap Ty.words).length := by
  rw [ofTys, size_pushAll]
  exact Nat.zero_add _

/-- A function that is accepted keeps to its contract, and each of its nodes stands at the height of
the stack with which verification visits it. -/
theorem Func.counted {f : Func} {callees : List Call} {first stop : Nat} {last : Sightings}
    (nested : Scoped callees [] first stop f.body) (ok : f.verify .empty = .ok last) :
    f.Steady ∧ ∀ v ∈ f.visits,
      Occurs v.node v.known.shape.size f.body f.contract.takes v.offset := by
  obtain ⟨after, body, same, -⟩ := Func.verify_eq_ok.1 ok
  have narrow : Sightings.empty.Narrow := fun _ mem => (List.not_mem_nil mem).elim
  obtain ⟨steady, level, visits⟩ := nested.counted narrow body
  have start : (Shape.ofTys f.contract.inputs f.place).size = f.contract.takes :=
    Shape.size_ofTys ..
  have leaves : after.shape.size = f.contract.leaves :=
    same.size_eq.symm.trans (Shape.size_ofTys ..)
  simp only [start] at steady level visits
  refine ⟨⟨steady, level.trans leaves⟩, fun v mem => ?_⟩
  obtain ⟨j, eq, occurs⟩ := visits 0 v mem
  rwa [eq, Nat.zero_add]

/-- Verification visits every node of a function that it accepts. -/
theorem Occurs.visited_alone {f : Func} {n : Node} {h j : Nat} {last : Sightings}
    (occurs : Occurs n h f.body f.contract.takes j) (ok : f.verify .empty = .ok last) :
    ∃ v ∈ f.visits, v.node = n ∧ v.offset = j := by
  obtain ⟨_, body, _⟩ := Func.verify_eq_ok.1 ok
  simpa only [Func.visits, Nat.zero_add] using occurs.visited body 0

section Programs

variable {p : Program} {capacity : Nat}

/-- In a program that is accepted all functions keep to their contracts. -/
theorem Program.Formed.steady (formed : p.Formed capacity) (ok : p.verify = .ok ()) : p.Steady := by
  intro f mem
  obtain ⟨first, stop, nested⟩ := formed.scoped f mem
  obtain ⟨last, alone⟩ := (Program.verify_eq_ok formed.wellScoped).1 ok f mem
  exact (Func.counted nested alone).1

end Programs

end PinnedStack
