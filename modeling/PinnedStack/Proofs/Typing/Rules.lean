import Mathlib.Data.List.Forall2
import PinnedStack.Verify

/-!
# The typing rules, read backwards

What has to hold for a step of verification to succeed, and what is known then.

* `Shape.drop_eq_ok`, `Shape.dropValue_eq_ok`, `Contract.applyTo_eq_ok` — words taken off a stack.
* `Shape.Matches` — equally high stacks that agree word by word; `Shape.isEqual_diff` says that
  comparing decides it.
* `Node.verify_ifTrue_eq_ok` … `Node.verify_loop_eq_ok` — one statement for each form of node.
-/

namespace PinnedStack

theorem Except.bind_eq_ok {ε α β : Type} {x : Except ε α} {f : α → Except ε β} {b : β} :
    (x >>= f) = .ok b ↔ ∃ a, x = .ok a ∧ f a = .ok b := by
  cases x with
  | ok a => simp [bind, Except.bind]
  | error e => simp [bind, Except.bind]

theorem Except.eq_ok_get {ε α : Type} {x : Except ε α} (h : x.toOption.isSome = true) :
    x = .ok (x.toOption.get h) := by
  cases x with
  | ok a => rfl
  | error e => cases h

theorem Except.exists_eq_ok {ε α β : Type} {x : Except ε (α × β)} {q : α × β → Bool}
    (h : x.toOption.any q = true) : ∃ a b, x = .ok (a, b) ∧ q (a, b) = true := by
  cases x with
  | ok r => exact ⟨r.1, r.2, rfl, h⟩
  | error e => cases h

/-! ## Words on top of a stack -/

namespace Shape

variable {s rest : Shape} {op : String} {place : Place}

theorem require_eq_ok {count : Nat} : s.require op count place = .ok () ↔ count ≤ s.size := by
  unfold require
  split
  · simp_all
  · simp_all

theorem drop_eq_ok {expected : Ty} : s.drop op expected place = .ok rest ↔
    ∃ c, s.cells = c :: rest.cells ∧ c.ty.fits expected = true := by
  obtain ⟨cells⟩ := s
  obtain ⟨left⟩ := rest
  unfold drop popExpecting
  cases cells with
  | nil => simp
  | cons c cells =>
    by_cases fits : c.ty.fits expected = true
    · simp [fits, and_comm]
    · simp [fits]

theorem dropAll_eq_ok {expected : List Ty} : s.dropAll op place expected = .ok rest ↔
    ∃ cells, s.cells = cells ++ rest.cells
      ∧ List.Forall₂ (fun c t => c.ty.fits t = true) cells expected := by
  induction expected generalizing s with
  | nil =>
    obtain ⟨cells⟩ := s
    obtain ⟨left⟩ := rest
    simp [dropAll]
  | cons t ts ih =>
    simp only [dropAll]
    cases top : s.drop op t place with
    | error d =>
      simp only [reduceCtorEq, false_iff]
      rintro ⟨cells, eq, fits⟩
      obtain ⟨c, more, fit, -, rfl⟩ := List.forall₂_cons_right_iff.1 fits
      have ok : s.drop op t place = .ok ⟨more ++ rest.cells⟩ := drop_eq_ok.2 ⟨c, eq, fit⟩
      rw [top] at ok
      cases ok
    | ok one =>
      obtain ⟨c, eq, fit⟩ := drop_eq_ok.1 top
      simp only [ih]
      constructor
      · rintro ⟨cells, below, fits⟩
        exact ⟨c :: cells, by simp [eq, below], .cons fit fits⟩
      · rintro ⟨cells, whole, fits⟩
        obtain ⟨d, more, -, below, rfl⟩ := List.forall₂_cons_right_iff.1 fits
        rw [eq] at whole
        exact ⟨more, (List.cons.inj whole).2, below⟩

/-- Taking off a value takes off one cell for each of its words. -/
theorem dropValue_eq_ok {t : Ty} : s.dropValue op t place = .ok rest ↔
    ∃ cells, s.cells = cells ++ rest.cells
      ∧ List.Forall₂ (fun c w => c.ty.fits w = true) cells t.words.reverse := by
  unfold dropValue
  split
  · exact dropAll_eq_ok
  · rename_i d short
    simp only [reduceCtorEq, false_iff]
    rintro ⟨cells, eq, fits⟩
    have enough : t.width ≤ s.size := by
      have lengths := fits.length_eq
      simp only [List.length_reverse, Ty.length_words] at lengths
      simp [size, eq, ← lengths]
    rw [require_eq_ok.2 enough] at short
    cases short

theorem cells_push (t : Ty) (origin : Place) :
    (s.push t origin).cells = (t.words.map (⟨·, origin⟩)).reverse ++ s.cells := rfl

theorem size_pushAll (ts : List Ty) (origin : Place) :
    (s.pushAll ts origin).size = s.size + (ts.flatMap Ty.words).length := by
  unfold pushAll
  induction ts generalizing s with
  | nil => rfl
  | cons t ts ih => simp [ih, Nat.add_assoc]

/-- Values are pushed word by word, the last word ending up highest. -/
theorem cells_pushAll_words (ts : List Ty) (origin : Place) :
    (s.pushAll ts origin).cells = ((ts.flatMap Ty.words).map (⟨·, origin⟩)).reverse ++ s.cells := by
  unfold pushAll
  induction ts generalizing s with
  | nil => simp
  | cons u ts ih => simp [ih, cells_push]

end Shape

theorem Ty.fits_self {t : Ty} (known : t ≠ .unknown) : t.fits t = true := by
  cases t with
  | word k =>
    cases k with
    | unknown => exact absurd rfl known
    | _ => rfl
  | pointerTo _ => rfl
  | record r => simp [fits, isPointer]

namespace Shape

/-! ## Stacks that agree -/

/-- Equally high stacks that agree word by word. -/
def Matches (a b : Shape) : Prop := List.Forall₂ (fun x y => x.ty.fits y.ty = true) a.cells b.cells

theorem Matches.size_eq {a b : Shape} (h : a.Matches b) : a.size = b.size := h.length_eq

theorem all_agree_zipWithAll {xs ys : List Cell} (lengths : xs.length = ys.length) :
    (List.zipWithAll Prod.mk xs ys).all agree = true
      ↔ List.Forall₂ (fun x y => x.ty.fits y.ty = true) xs ys := by
  induction xs generalizing ys with
  | nil =>
    cases ys with
    | nil => simp
    | cons _ _ => simp at lengths
  | cons x xs ih =>
    cases ys with
    | nil => simp at lengths
    | cons y ys => simp [agree, ih (by simpa using lengths)]

/-- Comparing two stacks finds them equal if they are equally high and agree word by word. -/
theorem isEqual_diff {a b : Shape} : (a.diff b).isEqual = true ↔ a.Matches b := by
  have heights : a.size = b.size ↔ a.bottomFirst.length = b.bottomFirst.length := by
    simp [size, bottomFirst]
  have flip : List.Forall₂ (fun x y => x.ty.fits y.ty = true) a.bottomFirst b.bottomFirst
      ↔ a.Matches b := List.forall₂_reverse_iff
  unfold diff Diff.isEqual
  by_cases lengths : a.size = b.size
  · rw [← flip, ← all_agree_zipWithAll (heights.1 lengths)]
    simp only [lengths, if_pos]
    split <;> simp_all [pairs]
  · simp only [lengths, if_neg, not_false_eq_true]
    simp only [beq_iff_eq, reduceCtorEq, false_iff]
    exact fun h => lengths h.size_eq

end Shape

theorem Contract.applyTo_eq_ok {c : Contract} {s after : Shape} {op : String} {place : Place} :
    c.applyTo s op place = .ok after ↔ ∃ cells rest, s.cells = cells.reverse ++ rest
      ∧ List.Forall₂ (fun d w => d.ty.fits w = true) cells (c.inputs.flatMap Ty.words)
      ∧ after = (⟨rest⟩ : Shape).pushAll c.outputs place := by
  unfold applyTo
  simp only
  split
  · rename_i d short
    simp only [reduceCtorEq, false_iff]
    rintro ⟨cells, rest, eq, fits, -⟩
    unfold Shape.take at short
    split at short
    · rename_i few
      have lengths := fits.length_eq
      simp only [Shape.size, eq, List.length_append, List.length_reverse] at few
      omega
    · cases short
  · rename_i cells rest taken
    obtain ⟨whole, lengths⟩ := Shape.take_eq_ok taken
    have same : ∀ {cells' rest'}, s.cells = cells'.reverse ++ rest' →
        List.Forall₂ (fun d w => d.ty.fits w = true) cells' (c.inputs.flatMap Ty.words) →
        cells' = cells ∧ rest' = rest.cells := by
      intro cells' rest' eq fits
      have both := List.append_inj (whole.symm.trans eq)
        (by simp [lengths, fits.length_eq])
      exact ⟨by simpa using both.1.symm, both.2.symm⟩
    have all : ((cells.zip (c.inputs.flatMap Ty.words)).reverse.find? fun pair =>
        !pair.1.ty.fits pair.2) = none
        ↔ List.Forall₂ (fun d w => d.ty.fits w = true) cells (c.inputs.flatMap Ty.words) := by
      rw [List.find?_eq_none, List.forall₂_iff_zip]
      simp only [List.mem_reverse, Prod.forall, Bool.not_eq_eq_eq_not, Bool.not_true,
        Bool.not_eq_false]
      exact ⟨fun h => ⟨lengths, h⟩, fun h => h.2⟩
    split
    · rename_i found
      simp only [reduceCtorEq, false_iff]
      rintro ⟨cells', rest', eq, fits, -⟩
      obtain ⟨rfl, -⟩ := same eq fits
      cases found.symm.trans (all.2 fits)
    · rename_i none
      constructor
      · intro ok
        cases ok
        exact ⟨cells, rest.cells, whole, all.1 none, rfl⟩
      · rintro ⟨cells', rest', eq, fits, rfl⟩
        obtain ⟨rfl, rfl⟩ := same eq fits
        rfl

/-! ## Sums -/

namespace Ty

variable {a b t : Ty}

theorem expectNumber_eq_ok {op : String} {u : Unit} : a.expectNumber op = .ok u ↔ a = .number := by
  unfold expectNumber
  cases a with
  | word k => cases k <;> simp [fits, isPointer]
  | pointerTo _ => simp [fits, isPointer]
  | record _ => simp [fits, isPointer]

theorem plus_eq_ok : a.plus b = .ok t ↔
    a.isPointer = true ∧ b = .number ∧ t = a ∨ a = .number ∧ b.isPointer = true ∧ t = b
      ∨ a = .number ∧ b = .number ∧ t = .number := by
  unfold plus
  cases pa : a.isPointer <;> cases pb : b.isPointer
  · simp [Except.bind_eq_ok, expectNumber_eq_ok, pure, Except.pure, eq_comm (a := t)]
  · simp [Except.bind_eq_ok, expectNumber_eq_ok, pure, Except.pure, eq_comm (a := t),
      ne_number_of_isPointer pb]
  · simp [Except.bind_eq_ok, expectNumber_eq_ok, pure, Except.pure, eq_comm (a := t),
      ne_number_of_isPointer pa]
  · simp [ne_number_of_isPointer pa, ne_number_of_isPointer pb]

theorem minus_eq_ok : a.minus b = .ok t ↔
    a.isPointer = true ∧ b.isPointer = true ∧ t = .number
      ∨ a.isPointer = true ∧ b = .number ∧ t = a ∨ a = .number ∧ b = .number ∧ t = .number := by
  unfold minus
  cases pa : a.isPointer <;> cases pb : b.isPointer
  · simp [Except.bind_eq_ok, expectNumber_eq_ok, pure, Except.pure, eq_comm (a := t)]
  · simp [ne_number_of_isPointer pb]
  · simp [Except.bind_eq_ok, expectNumber_eq_ok, pure, Except.pure, eq_comm (a := t),
      ne_number_of_isPointer pa]
  · simp [eq_comm (a := t), ne_number_of_isPointer pa, ne_number_of_isPointer pb]

end Ty

/-! ## Operations -/

theorem located_eq_ok {α : Type} {place : Place} {x : Except Fault α} {a : α} :
    located place x = .ok a ↔ x = .ok a := by
  cases x <;> simp [located]

/-- What an operation that concerns no pin does to a stack that it accepts. -/
inductive Op.Turns (place : Place) : Op → Shape → Shape → Prop where
  | dup {a : Cell} {rest : List Cell} : Turns place .dup ⟨a :: rest⟩ ⟨a :: a :: rest⟩
  | drop {a : Cell} {rest : List Cell} : Turns place .drop ⟨a :: rest⟩ ⟨rest⟩
  | swap {a b : Cell} {rest : List Cell} : Turns place .swap ⟨b :: a :: rest⟩ ⟨a :: b :: rest⟩
  | copySecond {a b : Cell} {rest : List Cell} :
      Turns place .copySecond ⟨b :: a :: rest⟩ ⟨a :: b :: a :: rest⟩
  | rot {a b c : Cell} {rest : List Cell} :
      Turns place .rot ⟨c :: b :: a :: rest⟩ ⟨a :: c :: b :: rest⟩
  | add {a b : Cell} {rest : List Cell} {ty : Ty} (rule : a.ty.plus b.ty = .ok ty) :
      Turns place (.binary .add) ⟨b :: a :: rest⟩ ((⟨rest⟩ : Shape).push ty place)
  | sub {a b : Cell} {rest : List Cell} {ty : Ty} (rule : a.ty.minus b.ty = .ok ty) :
      Turns place (.binary .sub) ⟨b :: a :: rest⟩ ((⟨rest⟩ : Shape).push ty place)
  | load {access : Access} {c : Cell} {rest : List Cell} {ty : Ty} (wide : access ≠ .byte)
      (leads : pointee (Op.load access).name c.ty access place = .ok ty) :
      Turns place (.load access) ⟨c :: rest⟩ ((⟨rest⟩ : Shape).push ty place)
  | store {access : Access} {c : Cell} {cells rest : List Cell} {ty : Ty} (wide : access ≠ .byte)
      (leads : pointee (Op.store access).name c.ty access place = .ok ty)
      (fits : List.Forall₂ (fun c w => c.ty.fits w = true) cells ty.words.reverse) :
      Turns place (.store access) ⟨c :: (cells ++ rest)⟩ ⟨rest⟩
  | syscall {arguments : Nat} {c : Cell} {cells rest : List Cell}
      (number : c.ty.fits .number = true) (count : cells.length = arguments)
      (concrete : ∀ a ∈ cells, a.ty.isConcrete = true) :
      Turns place (.syscall arguments) ⟨c :: (cells ++ rest)⟩ ((⟨rest⟩ : Shape).push .number place)
  | fixed {op : Op} {contract : Contract} {cells rest : List Cell}
      (effect : op.contract? = some contract)
      (fits : List.Forall₂ (fun c w => c.ty.fits w = true) cells
        (contract.inputs.flatMap Ty.words)) :
      Turns place op ⟨cells.reverse ++ rest⟩ ((⟨rest⟩ : Shape).pushAll contract.outputs place)

namespace Op

variable {op : Op} {place : Place} {s after : Shape}

theorem verifyLoad_eq_ok {name : String} {access : Access} :
    verifyLoad name access place s = .ok after ↔ ∃ c rest ty, s.cells = c :: rest
      ∧ pointee name c.ty access place = .ok ty ∧ after = (⟨rest⟩ : Shape).push ty place := by
  obtain ⟨cells⟩ := s
  unfold verifyLoad
  cases cells with
  | nil => simp [Shape.pop]
  | cons c rest =>
    simp only [Shape.pop]
    cases leads : pointee name c.ty access place with
    | error d => simp [leads]
    | ok ty => simp [leads, eq_comm (a := after)]

theorem verifyStore_eq_ok {name : String} {access : Access} :
    verifyStore name access place s = .ok after ↔ ∃ c cells ty, s.cells = c :: (cells ++ after.cells)
      ∧ pointee name c.ty access place = .ok ty
      ∧ List.Forall₂ (fun c w => c.ty.fits w = true) cells ty.words.reverse := by
  obtain ⟨cells⟩ := s
  unfold verifyStore
  cases cells with
  | nil => simp [Shape.pop]
  | cons c rest =>
    simp only [Shape.pop]
    cases leads : pointee name c.ty access place with
    | error d =>
      simp only [reduceCtorEq, false_iff]
      rintro ⟨_, _, _, eq, ok, -⟩
      cases eq
      rw [leads] at ok
      cases ok
    | ok ty =>
      simp only [Shape.dropValue_eq_ok]
      constructor
      · rintro ⟨cells, eq, fits⟩
        exact ⟨c, cells, ty, by rw [eq], leads, fits⟩
      · rintro ⟨d, cells, u, eq, ok, fits⟩
        cases eq
        rw [leads] at ok
        cases ok
        exact ⟨cells, rfl, fits⟩

theorem verifySum_eq_ok {name : String} {rule : Ty → Ty → Except Fault Ty} :
    verifySum name rule place s = .ok after ↔ ∃ b a rest ty, s.cells = b :: a :: rest
      ∧ rule a.ty b.ty = .ok ty ∧ after = (⟨rest⟩ : Shape).push ty place := by
  obtain ⟨cells⟩ := s
  unfold verifySum
  match cells with
  | [] => simp
  | [_] => simp
  | b :: a :: rest =>
    simp only
    cases sum : located place (rule a.ty b.ty) with
    | error d =>
      simp only [reduceCtorEq, false_iff]
      rintro ⟨_, _, _, _, eq, ok, -⟩
      cases eq
      rw [located_eq_ok.2 ok] at sum
      cases sum
    | ok ty => simp [located_eq_ok.1 sum, eq_comm (a := after)]

theorem verifySyscall_eq_ok {name : String} {arguments : Nat} :
    verifySyscall name arguments place s = .ok after ↔ ∃ c cells rest,
      s.cells = c :: (cells ++ rest) ∧ c.ty.fits .number = true ∧ cells.length = arguments
      ∧ (∀ a ∈ cells, a.ty.isConcrete = true) ∧ after = (⟨rest⟩ : Shape).push .number place := by
  have none : ∀ {cells : List Cell}, (cells.find? fun c => !c.ty.isConcrete) = none
      ↔ ∀ a ∈ cells, a.ty.isConcrete = true := by simp
  unfold verifySyscall
  simp only [Except.bind_eq_ok]
  constructor
  · rintro ⟨_, enough, s', top, ⟨cells, rest⟩, taken, ok⟩
    obtain ⟨c, eq, fits⟩ := Shape.drop_eq_ok.1 top
    obtain ⟨whole, count⟩ := Shape.take_eq_ok taken
    simp only at ok
    split at ok
    · cases ok
    · rename_i all
      cases ok
      refine ⟨c, cells.reverse, rest.cells, by rw [eq, whole], fits, by simp [count], ?_, rfl⟩
      simpa using none.1 all
  · rintro ⟨c, cells, rest, eq, fits, count, all, rfl⟩
    refine ⟨(), Shape.require_eq_ok.2 (by simp [Shape.size, eq, ← count]), ⟨cells ++ rest⟩,
      Shape.drop_eq_ok.2 ⟨c, eq, fits⟩, (cells.reverse, ⟨rest⟩), ?_, ?_⟩
    · unfold Shape.take
      rw [if_neg (by simp [Shape.size, ← count])]
      simp [← count]
    · simp only
      rw [none.2 (by simpa using all)]

def isPinning : Op → Bool
  | .pin _ => true
  | .unpin _ => true
  | .pinned _ => true
  | .update _ => true
  | _ => false

/-- An operation on no pin accepts a stack if its rule turns it into another. -/
theorem verifyShape_eq_ok (other : op.isPinning = false) :
    op.verifyShape place s = .ok after ↔ op.Turns place s after := by
  have fixed : ∀ {contract : Contract}, op.contract? = some contract →
      (verifyShape.fixed op place s = .ok after ↔ ∃ cells rest, s = ⟨cells.reverse ++ rest⟩
        ∧ List.Forall₂ (fun c w => c.ty.fits w = true) cells (contract.inputs.flatMap Ty.words)
        ∧ after = (⟨rest⟩ : Shape).pushAll contract.outputs place) := by
    intro contract effect
    unfold verifyShape.fixed
    rw [effect, Option.getD_some, Contract.applyTo_eq_ok]
    obtain ⟨cells⟩ := s
    simp
  constructor
  · intro ok
    have turns : ∀ {contract : Contract}, op.contract? = some contract →
        verifyShape.fixed op place s = .ok after → op.Turns place s after := by
      intro contract effect here
      obtain ⟨cells, rest, rfl, fits, rfl⟩ := (fixed effect).1 here
      exact .fixed effect fits
    obtain ⟨cells⟩ := s
    cases op with
    | dup =>
      match cells, ok with
      | a :: rest, rfl => exact .dup
    | drop =>
      match cells, ok with
      | a :: rest, rfl => exact .drop
    | swap =>
      match cells, ok with
      | b :: a :: rest, rfl => exact .swap
    | copySecond =>
      match cells, ok with
      | b :: a :: rest, rfl => exact .copySecond
    | rot =>
      match cells, ok with
      | c :: b :: a :: rest, rfl => exact .rot
    | binary op =>
      cases op with
      | add =>
        obtain ⟨b, a, rest, ty, rfl, rule, rfl⟩ := verifySum_eq_ok.1 ok
        exact .add rule
      | sub =>
        obtain ⟨b, a, rest, ty, rfl, rule, rfl⟩ := verifySum_eq_ok.1 ok
        exact .sub rule
      | _ => exact turns rfl ok
    | load access =>
      cases access with
      | byte => exact turns rfl ok
      | _ =>
        obtain ⟨c, rest, ty, rfl, leads, rfl⟩ := verifyLoad_eq_ok.1 ok
        exact .load (by simp) leads
    | store access =>
      cases access with
      | byte => exact turns rfl ok
      | _ =>
        obtain ⟨c, cells, ty, rfl, leads, fits⟩ := verifyStore_eq_ok.1 ok
        exact .store (by simp) leads fits
    | syscall arguments =>
      obtain ⟨c, cells, rest, rfl, number, count, concrete, rfl⟩ := verifySyscall_eq_ok.1 ok
      exact .syscall number count concrete
    | cast kind => cases kind <;> exact turns rfl ok
    | pin _ => cases other
    | unpin _ => cases other
    | pinned _ => cases other
    | update _ => cases other
    | _ => exact turns rfl ok
  · intro turns
    cases turns with
    | dup => rfl
    | drop => rfl
    | swap => rfl
    | copySecond => rfl
    | rot => rfl
    | add rule =>
      exact (@verifySum_eq_ok place _ _ "+" _).2 ⟨_, _, _, _, rfl, rule, rfl⟩
    | sub rule =>
      exact (@verifySum_eq_ok place _ _ "-" _).2 ⟨_, _, _, _, rfl, rule, rfl⟩
    | @load access _ _ _ wide leads =>
      cases access with
      | byte => exact absurd rfl wide
      | _ => exact verifyLoad_eq_ok.2 ⟨_, _, _, rfl, leads, rfl⟩
    | @store access _ _ _ _ wide leads fits =>
      cases access with
      | byte => exact absurd rfl wide
      | _ => exact verifyStore_eq_ok.2 ⟨_, _, _, rfl, leads, fits⟩
    | syscall number count concrete =>
      exact verifySyscall_eq_ok.2 ⟨_, _, _, rfl, number, count, concrete, rfl⟩
    | @fixed op contract cells rest effect fits =>
      have here := (fixed effect).2 ⟨cells, rest, rfl, fits, rfl⟩
      cases op with
      | binary op => cases op <;> first | exact here | cases effect
      | load access => cases access <;> first | exact here | cases effect
      | store access => cases access <;> first | exact here | cases effect
      | _ => first | exact here | cases effect

end Op

/-! ## Checks -/

theorem checkSingleArm_eq_ok {before after : Shape} (place : Place) :
    checkSingleArm before after place = .ok () ↔ before.Matches after := by
  rw [← Shape.isEqual_diff]
  unfold checkSingleArm
  simp only
  split <;> simp_all

theorem checkArms_eq_ok {yes no : Shape} (place : Place) :
    checkArms yes no place = .ok () ↔ yes.Matches no := by
  rw [← Shape.isEqual_diff]
  unfold checkArms
  simp only
  split <;> simp_all

theorem checkCondition_eq_ok {before after : Shape} {place : Place} :
    checkCondition before after place = .ok () ↔ before.Matches after := by
  rw [← Shape.isEqual_diff]
  unfold checkCondition
  simp only
  split <;> simp_all

theorem checkRound_eq_ok {iterator : Pin} {expected after : Shape} {place : Place} :
    checkRound iterator expected after place = .ok () ↔ expected.Matches after := by
  rw [← Shape.isEqual_diff, Shape.Diff.isEqual, beq_iff_eq]
  unfold checkRound
  simp only
  split <;> simp_all

/-! ## Pins -/

theorem Ty.isRuntime_iff {t : Ty} : t.isRuntime = true ↔ t = .runtime := by
  constructor
  · intro h
    match t, h with
    | .word .runtime, _ => rfl
  · rintro rfl
    rfl

namespace Knowledge

variable {k after : Knowledge} {p : Pin} {place : Place}

theorem bindPin_runtime_eq_ok (runtime : p.ty = .runtime) : k.bindPin p place = .ok after ↔
    ∃ c rest, k.shape.cells = c :: rest ∧ c.ty.isConcrete = true
      ∧ after = ⟨⟨rest⟩, k.sightings.record p.name c.ty⟩ := by
  obtain ⟨⟨cells⟩, sightings⟩ := k
  unfold bindPin
  rw [if_pos (by rw [runtime]; rfl)]
  cases cells with
  | nil => simp [Shape.pop]
  | cons c rest =>
    simp only [Shape.pop]
    split
    · rename_i single
      constructor
      · intro ok
        cases ok
        exact ⟨c, rest, rfl, single, rfl⟩
      · rintro ⟨_, _, eq, -, rfl⟩
        cases eq
        rfl
    · rename_i wide
      simp only [reduceCtorEq, false_iff]
      rintro ⟨_, _, eq, single, -⟩
      cases eq
      exact wide single

theorem bindPin_eq_ok (static : p.ty.isRuntime = false) : k.bindPin p place = .ok after ↔
    ∃ rest, k.shape.dropValue (pinning p) p.ty place = .ok rest
      ∧ after = { k with shape := rest } := by
  unfold bindPin
  rw [if_neg (by simp [static])]
  cases k.shape.dropValue (pinning p) p.ty place with
  | error d => simp
  | ok rest => simp [eq_comm (a := after)]

theorem tyOf_eq_ok (static : p.ty.isRuntime = false) : k.tyOf p place = .ok p.ty := by
  unfold tyOf
  rw [if_neg (by simp [static])]

theorem updatePin_eq_ok : k.updatePin p place = .ok after ↔
    ∃ ty rest, k.tyOf p place = .ok ty ∧ k.shape.dropValue (pinning p) ty place = .ok rest
      ∧ after = { k with shape := rest } := by
  unfold updatePin
  cases k.tyOf p place with
  | error d => simp
  | ok ty =>
    simp only [Except.ok.injEq, exists_and_left, exists_eq_left']
    cases k.shape.dropValue (pinning p) ty place with
    | error d => simp
    | ok rest => simp [eq_comm (a := after)]

theorem pushPin_eq_ok : k.pushPin p place = .ok after ↔
    ∃ ty, k.tyOf p place = .ok ty ∧ after = { k with shape := k.shape.push ty place } := by
  unfold pushPin
  cases k.tyOf p place with
  | error d => simp
  | ok ty => simp [eq_comm (a := after)]

theorem releasePin_eq (static : p.ty.isRuntime = false) : k.releasePin p = k := by
  unfold releasePin
  rw [if_neg (by simp [static])]

end Knowledge

/-- An operation on no pin changes the stack by its rule and nothing else. -/
theorem Op.verify_eq_ok {op : Op} {k after : Knowledge} {place : Place}
    (other : op.isPinning = false) : op.verify place k = .ok after ↔
    ∃ s, op.Turns place k.shape s ∧ after = { k with shape := s } := by
  have plain : op.verify place k
      = op.verifyShape place k.shape >>= fun s => .ok { k with shape := s } := by
    unfold verify
    split
    · cases other
    · cases other
    · cases other
    · cases other
    · cases op.verifyShape place k.shape <;> rfl
  rw [plain, Except.bind_eq_ok]
  simp only [verifyShape_eq_ok other, Except.ok.injEq, eq_comm (a := after)]

/-! ## Nodes -/

section Nodes

variable {k after : Knowledge} {place : Place} {label : Nat}

theorem Node.verify_call_eq_ok {call : Call} : (Node.call call place).verify k = .ok after ↔
    ∃ s, call.contract.applyTo k.shape call.name place = .ok s
      ∧ after = { k with shape := s } := by
  simp only [Node.verify, Except.bind_eq_ok]
  simp [pure, Except.pure, eq_comm]

theorem Node.verify_ifTrue_eq_ok {body : List Node} :
    (Node.ifTrue body label place).verify k = .ok after ↔
    ∃ s, k.shape.drop "if" .number place = .ok s
      ∧ verifyAll body { k with shape := s } = .ok after ∧ s.Matches after.shape := by
  simp only [Node.verify, Except.bind_eq_ok, ← checkSingleArm_eq_ok place]
  constructor
  · rintro ⟨s, top, last, arm, _, same, eq⟩
    cases eq
    exact ⟨s, top, arm, same⟩
  · rintro ⟨s, top, arm, same⟩
    exact ⟨s, top, after, arm, (), same, rfl⟩

theorem Node.verify_ifFalse_eq_ok {body : List Node} :
    (Node.ifFalse body label place).verify k = .ok after ↔
    ∃ s, k.shape.drop "if" .number place = .ok s
      ∧ verifyAll body { k with shape := s } = .ok after ∧ s.Matches after.shape := by
  simp only [Node.verify, Except.bind_eq_ok, ← checkSingleArm_eq_ok place]
  constructor
  · rintro ⟨s, top, last, arm, _, same, eq⟩
    cases eq
    exact ⟨s, top, arm, same⟩
  · rintro ⟨s, top, arm, same⟩
    exact ⟨s, top, after, arm, (), same, rfl⟩

theorem Node.verify_ifElse_eq_ok {yes no : List Node} :
    (Node.ifElse yes no label place).verify k = .ok after ↔
    ∃ s afterYes afterNo, k.shape.drop "if" .number place = .ok s
      ∧ verifyAll yes { k with shape := s } = .ok afterYes
      ∧ verifyAll no { afterYes with shape := s } = .ok afterNo
      ∧ afterYes.shape.Matches afterNo.shape
      ∧ after = { afterNo with shape := afterYes.shape } := by
  simp only [Node.verify, Except.bind_eq_ok, ← checkArms_eq_ok place]
  constructor
  · rintro ⟨s, top, afterYes, left, afterNo, right, _, same, eq⟩
    cases eq
    exact ⟨s, afterYes, afterNo, top, left, right, same, rfl⟩
  · rintro ⟨s, afterYes, afterNo, top, left, right, same, rfl⟩
    exact ⟨s, top, afterYes, left, afterNo, right, (), same, rfl⟩

/-- A loop binds its pin, and each round starts from the same stack. -/
theorem Node.verify_loop_iff {p : Pin} {condition body : List Node} :
    (Node.loop p condition body label place).verify k = .ok after ↔
    ∃ bound start tested s round expected updated last,
      k.bindPin p place = .ok bound ∧ bound.pushPin p place = .ok start
      ∧ verifyAll condition start = .ok tested
      ∧ tested.shape.drop "loop condition" .number place = .ok s ∧ bound.shape.Matches s
      ∧ verifyAll body { tested with shape := s } = .ok round
      ∧ ({ round with shape := bound.shape } : Knowledge).pushPin p place = .ok expected
      ∧ expected.shape.Matches round.shape ∧ round.updatePin p place = .ok updated
      ∧ updated.pushPin p place = .ok last ∧ after = last.releasePin p := by
  simp only [Node.verify, Except.bind_eq_ok]
  constructor
  · rintro ⟨bound, bind, start, push, tested, test, s, number, _, same, round, turn, expected, next, _,
      again, updated, update, last, out, eq⟩
    cases eq
    exact ⟨bound, start, tested, s, round, expected, updated, last, bind, push, test, number,
      checkCondition_eq_ok.1 same, turn, next, checkRound_eq_ok.1 again, update, out, rfl⟩
  · rintro ⟨bound, start, tested, s, round, expected, updated, last, bind, push, test, number, same,
      turn, next, again, update, out, rfl⟩
    exact ⟨bound, bind, start, push, tested, test, s, number, (), checkCondition_eq_ok.2 same, round,
      turn, expected, next, (), checkRound_eq_ok.2 again, updated, update, last, out, rfl⟩

/-- A loop whose pin has a type of its own takes it off the stack and puts it back. -/
theorem Node.verify_loop_eq_ok {p : Pin} {condition body : List Node}
    (static : p.ty.isRuntime = false) :
    (Node.loop p condition body label place).verify k = .ok after ↔
    ∃ below tested s round left,
      k.shape.dropValue (Knowledge.pinning p) p.ty place = .ok below
      ∧ verifyAll condition { k with shape := below.push p.ty place } = .ok tested
      ∧ tested.shape.drop "loop condition" .number place = .ok s ∧ below.Matches s
      ∧ verifyAll body { tested with shape := s } = .ok round
      ∧ (below.push p.ty place).Matches round.shape
      ∧ round.shape.dropValue (Knowledge.pinning p) p.ty place = .ok left
      ∧ after = { round with shape := left.push p.ty place } := by
  simp only [Node.verify_loop_iff, Knowledge.bindPin_eq_ok static, Knowledge.pushPin_eq_ok,
    Knowledge.updatePin_eq_ok, Knowledge.tyOf_eq_ok static, Except.ok.injEq]
  constructor
  · rintro ⟨_, _, tested, s, round, _, _, _, ⟨below, top, rfl⟩, ⟨_, rfl, rfl⟩, test, number, same,
      turn, ⟨_, rfl, rfl⟩, again, ⟨_, left, rfl, next, rfl⟩, ⟨_, rfl, rfl⟩, rfl⟩
    rw [Knowledge.releasePin_eq static]
    exact ⟨below, tested, s, round, left, top, test, number, same, turn, again, next, rfl⟩
  · rintro ⟨below, tested, s, round, left, top, test, number, same, turn, again, next, rfl⟩
    exact ⟨_, _, tested, s, round, _, _, _, ⟨below, top, rfl⟩, ⟨_, rfl, rfl⟩, test, number, same,
      turn, ⟨_, rfl, rfl⟩, again, ⟨_, left, rfl, next, rfl⟩, ⟨_, rfl, rfl⟩,
      by rw [Knowledge.releasePin_eq static]⟩

theorem verifyAll_cons_eq_ok {n : Node} {ns : List Node} :
    verifyAll (n :: ns) k = .ok after ↔
    ∃ next, n.verify k = .ok next ∧ verifyAll ns next = .ok after := by
  simp only [verifyAll, Except.bind_eq_ok]

theorem verifyAll_append (xs ys : List Node) (k : Knowledge) :
    verifyAll (xs ++ ys) k = (verifyAll xs k >>= verifyAll ys) := by
  induction xs generalizing k with
  | nil => rfl
  | cons n xs ih =>
    simp only [List.cons_append, verifyAll, ih]
    cases n.verify k <;> rfl

theorem verifyAll_append_eq_ok {xs ys : List Node} :
    verifyAll (xs ++ ys) k = .ok after ↔
    ∃ middle, verifyAll xs k = .ok middle ∧ verifyAll ys middle = .ok after := by
  rw [verifyAll_append, Except.bind_eq_ok]

theorem verifyAll_singleton (n : Node) (k : Knowledge) : verifyAll [n] k = n.verify k := by
  simp only [verifyAll]
  cases n.verify k <;> rfl

end Nodes

/-! ## Functions -/

theorem Func.verify_eq_ok {f : Func} {σ last : Sightings} : f.verify σ = .ok last ↔
    ∃ after, verifyAll f.body ⟨.ofTys f.contract.inputs f.place, σ⟩ = .ok after
      ∧ (Shape.ofTys f.contract.outputs f.place).Matches after.shape ∧ last = after.sightings := by
  simp only [Func.verify, Except.bind_eq_ok, ← Shape.isEqual_diff]
  constructor
  · rintro ⟨after, body, ok⟩
    split at ok
    · rename_i same
      cases ok
      exact ⟨after, body, same, rfl⟩
    · cases ok
  · rintro ⟨after, body, same, rfl⟩
    exact ⟨after, body, by rw [if_pos same]; rfl⟩

end PinnedStack
