import PinnedStack.Proofs.Typing.Rules

/-!
# Composed contracts

A contract that `Contract.andThen` makes of two does to every stack what the two do in a row.

* `Ty.FieldsKnown`, `Contract.FieldsKnown` — no field of a record stands for an error.
* `Contract.needs`, `Contract.gives` — the words a contract takes and leaves, top first.
* `Takes` — words taken off cells. `Contract.applyTo_iff_takes` — a contract takes words and pushes
  others.
* `Settles`, `Clashes` — how two lists of types meet; `Contract.andThen_settles` and
  `Contract.andThen_clashes` say how the words of two contracts do.
* `Contract.andThen_agrees` — the composed contract and the two in a row.
-/

namespace PinnedStack

/-! ## Words -/

/-- No field of a record has the kind that stands for an error. -/
def Ty.FieldsKnown : Ty → Prop
  | .record r => ∀ f ∈ r.fields, f.kind ≠ .unknown
  | _ => True

/-- The same of all types of a contract. -/
def Contract.FieldsKnown (c : Contract) : Prop := ∀ t ∈ c.inputs ++ c.outputs, t.FieldsKnown

/-- The types of the words of a stack, top first. -/
def Shape.tys (s : Shape) : List Ty := s.cells.map (·.ty)

/-- Cells of given types that come from one place. -/
def cellsAt (place : Place) (tys : List Ty) : List Cell := tys.map (⟨·, place⟩)

@[simp] theorem cellsAt_nil (place : Place) : cellsAt place [] = [] := rfl

@[simp] theorem cellsAt_cons (place : Place) (t : Ty) (tys : List Ty) :
    cellsAt place (t :: tys) = ⟨t, place⟩ :: cellsAt place tys := rfl

@[simp] theorem cellsAt_append (place : Place) (xs ys : List Ty) :
    cellsAt place (xs ++ ys) = cellsAt place xs ++ cellsAt place ys := List.map_append

@[simp] theorem tys_cellsAt (place : Place) (tys : List Ty) :
    (cellsAt place tys).map (·.ty) = tys := by simp [cellsAt, Function.comp_def]

namespace Ty

variable {a b t : Ty}

theorem isRecord_of_mem_words {w : Ty} (mem : w ∈ t.words) : w.isRecord = false := by
  cases t with
  | record r =>
    obtain ⟨f, -, rfl⟩ := List.mem_map.1 mem
    rfl
  | word k =>
    obtain rfl := List.mem_singleton.1 mem
    rfl
  | pointerTo u =>
    obtain rfl := List.mem_singleton.1 mem
    rfl

theorem words_of_isRecord (plain : t.isRecord = false) : t.words = [t] := by
  cases t with
  | record r => cases plain
  | _ => rfl

theorem fieldsKnown_of_isRecord (plain : t.isRecord = false) : t.FieldsKnown := by
  cases t with
  | record r => cases plain
  | _ => trivial

/-- The words of types that are no records are these types. -/
theorem flatMap_words_of_plain {ts : List Ty} (plain : ∀ t ∈ ts, t.isRecord = false) :
    ts.flatMap words = ts := by
  induction ts with
  | nil => rfl
  | cons t ts ih =>
    rw [List.flatMap_cons, words_of_isRecord (plain t (List.mem_cons_self ..)),
      ih fun u mem => plain u (List.mem_cons_of_mem _ mem)]
    rfl

theorem isRecord_of_mem_flatMap {ts : List Ty} : ∀ w ∈ ts.flatMap words, w.isRecord = false := by
  intro w mem
  obtain ⟨t, -, mem⟩ := List.mem_flatMap.1 mem
  exact isRecord_of_mem_words mem

theorem fits_words (known : a.FieldsKnown) (fit : a.fits b = true) :
    List.Forall₂ (fun x y => x.fits y = true) a.words b.words := by
  cases a with
  | record r =>
    match b, fit with
    | record s, fit =>
      obtain rfl : r = s := by simpa [fits, isPointer] using fit
      simp only [words, List.forall₂_map_left_iff, List.forall₂_map_right_iff]
      exact List.forall₂_same.2 fun f mem => fits_self fun eq => known f mem (Ty.word.inj eq)
    | word k, fit => cases k <;> cases fit
    | pointerTo _, fit => cases fit
  | word k =>
    cases b with
    | record s => cases k <;> cases fit
    | _ => exact .cons fit .nil
  | pointerTo _ =>
    cases b with
    | record s => cases fit
    | _ => exact .cons fit .nil

end Ty

namespace Contract

/-- The words that a contract takes, top first. -/
def needs (c : Contract) : List Ty := (c.inputs.flatMap Ty.words).reverse

/-- The words that a contract leaves, top first. -/
def gives (c : Contract) : List Ty := (c.outputs.flatMap Ty.words).reverse

end Contract

/-! ## Taking words off -/

/-- Cells on top fit the wanted words, the highest first; the rest stays. -/
inductive Takes : List Ty → List Cell → List Cell → Prop where
  | nil {cells : List Cell} : Takes [] cells cells
  | cons {w : Ty} {ws : List Ty} {c : Cell} {cells below : List Cell} (fit : c.ty.fits w = true)
      (rest : Takes ws cells below) : Takes (w :: ws) (c :: cells) below

namespace Takes

variable {ws vs : List Ty} {w : Ty} {c : Cell} {cells below : List Cell}

@[simp] theorem nil_iff : Takes [] cells below ↔ below = cells := by
  constructor
  · intro h
    cases h
    rfl
  · rintro rfl
    exact .nil

@[simp] theorem cons_iff :
    Takes (w :: ws) (c :: cells) below ↔ c.ty.fits w = true ∧ Takes ws cells below := by
  constructor
  · intro h
    cases h with
    | cons fit rest => exact ⟨fit, rest⟩
  · rintro ⟨fit, rest⟩
    exact .cons fit rest

theorem append_iff :
    Takes (ws ++ vs) cells below ↔ ∃ middle, Takes ws cells middle ∧ Takes vs middle below := by
  induction ws generalizing cells with
  | nil => simp
  | cons w ws ih =>
    constructor
    · intro h
      cases h with
      | cons fit rest =>
        obtain ⟨middle, first, second⟩ := ih.1 rest
        exact ⟨middle, .cons fit first, second⟩
    · rintro ⟨middle, first, second⟩
      cases first with
      | cons fit rest => exact .cons fit (ih.2 ⟨middle, rest, second⟩)

/-- What stays does not depend on how the words are taken. -/
theorem unique {other : List Cell} (h : Takes ws cells below) (h' : Takes ws cells other) :
    below = other := by
  induction h with
  | nil => exact (nil_iff.1 h').symm
  | cons _ _ ih => exact ih (cons_iff.1 h').2

/-- The cells that are taken off stand in front of the rest. -/
theorem iff_forall₂ : Takes ws cells below ↔
    ∃ top, cells = top ++ below ∧ List.Forall₂ (fun c w => c.ty.fits w = true) top ws := by
  constructor
  · intro h
    induction h with
    | nil => exact ⟨[], rfl, .nil⟩
    | cons fit _ ih =>
      obtain ⟨top, rfl, fits⟩ := ih
      exact ⟨_ :: top, rfl, .cons fit fits⟩
  · rintro ⟨top, rfl, fits⟩
    induction fits with
    | nil => exact .nil
    | cons fit _ ih => exact .cons fit ih

end Takes

/-- A contract takes words off and pushes others in their place. -/
theorem Contract.applyTo_iff_takes {c : Contract} {s t : Shape} {op : String} {place : Place} :
    c.applyTo s op place = .ok t ↔
    ∃ below, Takes c.needs s.cells below ∧ t = ⟨cellsAt place c.gives ++ below⟩ := by
  have pushed : ∀ below : List Cell, (⟨below⟩ : Shape).pushAll c.outputs place
      = ⟨cellsAt place c.gives ++ below⟩ := by
    intro below
    have cells := Shape.cells_pushAll_words (s := ⟨below⟩) c.outputs place
    rw [← List.map_reverse] at cells
    exact congrArg Shape.mk cells
  rw [applyTo_eq_ok]
  simp only [pushed, needs, Takes.iff_forall₂]
  constructor
  · rintro ⟨cells, rest, eq, fits, rfl⟩
    exact ⟨rest, ⟨cells.reverse, eq, List.forall₂_reverse_iff.2 fits⟩, rfl⟩
  · rintro ⟨rest, ⟨top, eq, fits⟩, rfl⟩
    refine ⟨top.reverse, rest, by simpa using eq, ?_, rfl⟩
    simpa using List.forall₂_reverse_iff.2 fits

/-! ## Types that meet -/

/-- Types that meet fit each other until one of the lists ends; what is left of either remains. -/
inductive Settles : (available wanted left missing : List Ty) → Prop where
  | left {available : List Ty} : Settles available [] available []
  | missing {wanted : List Ty} : Settles [] wanted [] wanted
  | next {a w : Ty} {available wanted left missing : List Ty} (fit : a.fits w = true)
      (rest : Settles available wanted left missing) :
      Settles (a :: available) (w :: wanted) left missing

/-- Somewhere two types meet that do not fit. -/
inductive Clashes : (available wanted : List Ty) → Prop where
  | here {a w : Ty} {available wanted : List Ty} (clash : a.fits w = false) :
      Clashes (a :: available) (w :: wanted)
  | later {a w : Ty} {available wanted : List Ty} (fit : a.fits w = true)
      (rest : Clashes available wanted) : Clashes (a :: available) (w :: wanted)

section Meeting

variable {available wanted left missing : List Ty}

theorem Contract.settle_settles (ok : settle available wanted = .ok (left, missing)) :
    Settles available wanted left missing := by
  fun_induction settle available wanted with
  | case1 available =>
    cases ok
    exact .left
  | case2 wanted nonempty =>
    cases ok
    exact .missing
  | case3 a available w wanted fit ih => exact .next fit (ih ok)
  | case4 a available w wanted clash => cases ok

theorem Contract.settle_clashes {fault : Fault} (no : settle available wanted = .error fault) :
    Clashes available wanted := by
  fun_induction settle available wanted with
  | case1 available => cases no
  | case2 wanted nonempty => cases no
  | case3 a available w wanted fit ih => exact .later fit (ih no)
  | case4 a available w wanted clash => exact .here (by simpa using clash)

/-- Types in front that fit each other change nothing about the rest. -/
theorem Settles.prepend {xs ys : List Ty} (fits : List.Forall₂ (fun x y => x.fits y = true) xs ys)
    (h : Settles available wanted left missing) :
    Settles (xs ++ available) (ys ++ wanted) left missing := by
  induction fits with
  | nil => exact h
  | cons fit _ ih => exact .next fit ih

/-- Values that settle do so word by word. -/
theorem Settles.words (known : ∀ t ∈ available, t.FieldsKnown)
    (h : Settles available wanted left missing) :
    Settles (available.reverse.flatMap Ty.words).reverse (wanted.reverse.flatMap Ty.words).reverse
      (left.reverse.flatMap Ty.words).reverse (missing.reverse.flatMap Ty.words).reverse := by
  induction h with
  | left => exact .left
  | missing => exact .missing
  | @next a w available wanted left missing fit rest ih =>
    have ih := ih fun t mem => known t (List.mem_cons_of_mem _ mem)
    have fits := Ty.fits_words (known a (List.mem_cons_self ..)) fit
    have top : ∀ (t : Ty) (ts : List Ty), ((t :: ts).reverse.flatMap Ty.words).reverse
        = t.words.reverse ++ (ts.reverse.flatMap Ty.words).reverse := by simp
    rw [top, top]
    exact ih.prepend (List.forall₂_reverse_iff.2 fits)

/-- Wanted words settle with those on top, and what is missing is taken from below. -/
theorem Settles.takes_iff (h : Settles available wanted left missing) {place : Place}
    {rest below : List Cell} : Takes wanted (cellsAt place available ++ rest) below
      ↔ ∃ under, Takes missing rest under ∧ below = cellsAt place left ++ under := by
  induction h with
  | left => simp
  | missing => simp
  | next fit _ ih => simpa [fit] using ih

theorem Clashes.not_takes (h : Clashes available wanted) {place : Place} {rest below : List Cell} :
    ¬ Takes wanted (cellsAt place available ++ rest) below := by
  induction h with
  | here clash => simp [clash]
  | later fit _ ih => simpa [fit] using ih

end Meeting

/-! ## Contracts that meet -/

namespace Contract

variable {a b c : Contract}

/-- The words of a contract made of two whose values settle. -/
theorem join_settles (known : ∀ t ∈ a.outputs, t.FieldsKnown) (ok : a.join b = .ok c) :
    ∃ left missing, Settles a.gives b.needs left missing ∧ c.needs = a.needs ++ missing
      ∧ c.gives = b.gives ++ left := by
  unfold join at ok
  split at ok
  · cases ok
  · rename_i left missing settled
    cases ok
    have words := (settle_settles settled).words fun t mem => known t (List.mem_reverse.1 mem)
    rw [List.reverse_reverse, List.reverse_reverse] at words
    exact ⟨_, _, words, by simp [needs], by simp [gives]⟩

theorem join_clashes {fault : Fault} (plain : ∀ t ∈ a.outputs ++ b.inputs, t.isRecord = false)
    (no : a.join b = .error fault) : Clashes a.gives b.needs := by
  have outputs := Ty.flatMap_words_of_plain fun t mem => plain t (List.mem_append_left _ mem)
  have inputs := Ty.flatMap_words_of_plain fun t mem => plain t (List.mem_append_right _ mem)
  unfold join at no
  split at no
  · rename_i settled
    have clash := settle_clashes settled
    rwa [gives, needs, outputs, inputs]
  · cases no

/-- **The words of a composed contract** are those that the two do not settle between themselves. -/
theorem andThen_settles (known : a.FieldsKnown) (ok : a.andThen b = .ok c) :
    ∃ left missing, Settles a.gives b.needs left missing ∧ c.needs = a.needs ++ missing
      ∧ c.gives = b.gives ++ left := by
  unfold andThen at ok
  split at ok
  · rename_i joined
    cases ok
    exact join_settles (fun t mem => known t (List.mem_append_right _ mem)) joined
  · split at ok
    · have words := join_settles
        (fun t mem => Ty.fieldsKnown_of_isRecord (Ty.isRecord_of_mem_flatMap t mem)) ok
      simpa only [gives, needs, Ty.flatMap_words_of_plain Ty.isRecord_of_mem_flatMap] using words
    · cases ok

/-- Contracts that cannot be composed clash in some word. -/
theorem andThen_clashes {fault : Fault} (no : a.andThen b = .error fault) :
    Clashes a.gives b.needs := by
  unfold andThen at no
  split at no
  · cases no
  · split at no
    · have words := join_clashes (a := ⟨a.inputs, a.outputs.flatMap Ty.words⟩)
        (b := ⟨b.inputs.flatMap Ty.words, b.outputs⟩) (fun t mem => ?_) no
      · simpa only [gives, needs, Ty.flatMap_words_of_plain Ty.isRecord_of_mem_flatMap] using words
      · rcases List.mem_append.1 mem with mem | mem
        · exact Ty.isRecord_of_mem_flatMap t mem
        · exact Ty.isRecord_of_mem_flatMap t mem
    · rename_i joined plain
      refine join_clashes (fun t mem => ?_) joined
      have none : ¬ t.isRecord = true := fun is => plain (List.any_eq_true.2 ⟨t, mem, is⟩)
      simpa using none

/-! ## Both in a row -/

/-- Runs a contract at a place and then another one at another place. -/
def applyBoth (a b : Contract) (s : Shape) (opA opB : String) (placeA placeB : Place) :
    Except Diagnostic Shape := do
  let middle ← a.applyTo s opA placeA
  b.applyTo middle opB placeB

theorem applyBoth_iff_takes {s t : Shape} {opA opB : String} {placeA placeB : Place} :
    a.applyBoth b s opA opB placeA placeB = .ok t ↔
    ∃ middle below, Takes a.needs s.cells middle
      ∧ Takes b.needs (cellsAt placeA a.gives ++ middle) below
      ∧ t = ⟨cellsAt placeB b.gives ++ below⟩ := by
  simp only [applyBoth, Except.bind_eq_ok, applyTo_iff_takes]
  constructor
  · rintro ⟨_, ⟨middle, first, rfl⟩, below, second, rfl⟩
    exact ⟨middle, below, first, second, rfl⟩
  · rintro ⟨middle, below, first, second, rfl⟩
    exact ⟨_, ⟨middle, first, rfl⟩, below, second, rfl⟩

/-- **A composed contract does what the two do in a row.** On every stack the two are both accepted
or both refused. They leave the same types, and the very same cells where all stand at one place.
Contracts that cannot be composed do not run in a row on any stack. Fields that stand for errors only
matter in the first contract: a record of the second one that meets no equal one is taken apart. -/
theorem andThen_agrees (known : a.FieldsKnown) :
    (∀ c, a.andThen b = .ok c →
      ∀ (s : Shape) (op opA opB : String) (place placeA placeB : Place),
        ((∃ t, c.applyTo s op place = .ok t) ↔
          ∃ u, a.applyBoth b s opA opB placeA placeB = .ok u)
        ∧ ∀ t u, c.applyTo s op place = .ok t → a.applyBoth b s opA opB placeA placeB = .ok u →
          t.tys = u.tys ∧ (placeA = place → placeB = place → t = u))
    ∧ ∀ fault, a.andThen b = .error fault →
      ∀ (s u : Shape) (opA opB : String) (placeA placeB : Place),
        a.applyBoth b s opA opB placeA placeB ≠ .ok u := by
  refine ⟨fun c ok s op opA opB place placeA placeB => ?_, fun fault no => ?_⟩
  · obtain ⟨left, missing, settles, needs, gives⟩ := andThen_settles known ok
    simp only [applyTo_iff_takes, applyBoth_iff_takes, settles.takes_iff, needs, gives,
      Takes.append_iff, cellsAt_append, List.append_assoc]
    refine ⟨⟨?forth, ?back⟩, ?same⟩
    case forth =>
      rintro ⟨_, below, ⟨middle, first, second⟩, rfl⟩
      exact ⟨_, middle, _, first, ⟨below, second, rfl⟩, rfl⟩
    case back =>
      rintro ⟨_, middle, _, first, ⟨below, second, rfl⟩, rfl⟩
      exact ⟨_, below, ⟨middle, first, second⟩, rfl⟩
    case same =>
      rintro _ _ ⟨below, ⟨middle, first, second⟩, rfl⟩ ⟨middle', _, first', ⟨below', second', rfl⟩, rfl⟩
      obtain rfl := first.unique first'
      obtain rfl := second.unique second'
      refine ⟨by simp [Shape.tys], ?_⟩
      rintro rfl rfl
      rfl
  · intro s u opA opB placeA placeB ran
    obtain ⟨middle, below, -, second, -⟩ := applyBoth_iff_takes.1 ran
    exact (andThen_clashes no).not_takes second

/-- A record meets its words from the other side, and a pointer is left over and asked for below. -/
theorem andThen_agrees_split :
    ∃ a b c : Contract, a = ⟨[.number], [.str]⟩ ∧ b = ⟨[.pointer, .number, .pointer], [.number]⟩
      ∧ a.FieldsKnown ∧ a.andThen b = .ok c ∧ c = ⟨[.pointer, .number], [.number]⟩
      ∧ ∀ (s : Shape) (op opA opB : String) (place placeA placeB : Place),
        ((∃ t, c.applyTo s op place = .ok t) ↔
          ∃ u, a.applyBoth b s opA opB placeA placeB = .ok u)
        ∧ ∀ t u, c.applyTo s op place = .ok t → a.applyBoth b s opA opB placeA placeB = .ok u →
          t.tys = u.tys ∧ (placeA = place → placeB = place → t = u) := by
  have known : Contract.FieldsKnown ⟨[.number], [.str]⟩ := by
    simp [FieldsKnown, Ty.FieldsKnown, Ty.str, Ty.ofRecord, Record.str]
  have composed : andThen ⟨[.number], [.str]⟩ ⟨[.pointer, .number, .pointer], [.number]⟩
      = .ok ⟨[.pointer, .number], [.number]⟩ := by rfl
  exact ⟨_, _, _, rfl, rfl, known, composed, rfl, (andThen_agrees known).1 _ composed⟩

end Contract

end PinnedStack
