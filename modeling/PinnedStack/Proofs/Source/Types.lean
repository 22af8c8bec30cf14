import PinnedStack.Proofs.Constant.Trees

/-!
# Types read back from their text

Messages show a type by its text; a program writes a type by the same text.

* `Globals.defineAll` — definitions in a row, of which some may be refused.
* `Globals.Expressible` — the types that have a text of their own in a scope.
* `Globals.Spelled` — every name in scope is one that `define` accepts; no such name is the text of
  a word, and none starts with a star.
* `Globals.tyOf_text` — the text of a type denotes that type, in every scope that definitions lead
  to.
-/

namespace PinnedStack

namespace Globals

/-- Adds definitions in a row; one that is refused leaves the scope as it is. -/
def defineAll (g : Globals) : List Global → Globals
  | [] => g
  | d :: rest =>
      match g.define d.name d.meaning d.place with
      | .ok next => next.defineAll rest
      | .error _ => g.defineAll rest

/-- The types that have a text of their own in a scope: numbers, addresses, records of several
fields that go by their own names, and pointers to such types. -/
inductive Expressible (g : Globals) : Ty → Prop
  | number : g.Expressible .number
  | pointer : g.Expressible .pointer
  | record {r : Record} (held : g.record? r.name = some r) (named : r.name ≠ "")
      (several : 2 ≤ r.fields.length) : g.Expressible (.record r)
  | pointerTo {target : Ty} (expressible : g.Expressible target) :
      g.Expressible (.pointerTo target)

/-- Every name in scope is neither reserved nor misspelled. -/
def Spelled (g : Globals) : Prop :=
  g.Each fun name _ => isReserved name = false ∧ isMisspelled name = false

theorem misspelled_of_define {g next : Globals} {name : String} {meaning : Meaning} {place : Place}
    (defined : g.define name meaning place = .ok next) : isMisspelled name = false :=
  (define_eq_ok.1 defined).2.1

theorem spelled_initial : initial.Spelled := by
  unfold Spelled Each
  decide

theorem Spelled.define {g next : Globals} {name : String} {meaning : Meaning} {place : Place}
    (h : g.Spelled) (defined : g.define name meaning place = .ok next) : next.Spelled :=
  Each.define h ⟨unreserved_of_define defined, misspelled_of_define defined⟩ defined

theorem Spelled.defineAll {g : Globals} (h : g.Spelled) (definitions : List Global) :
    (g.defineAll definitions).Spelled := by
  induction definitions generalizing g with
  | nil => exact h
  | cons d rest ih =>
    rw [Globals.defineAll]
    split
    · rename_i next defined
      exact ih (h.define defined)
    · exact ih h

/-- A record in scope goes by a name of its own: no word has it, and no star stands in front. -/
theorem Spelled.record {g : Globals} (h : g.Spelled) {name : String} {r : Record}
    (held : g.record? name = some r) :
    name ≠ "Number" ∧ name ≠ "Pointer" ∧ name.toList.head? ≠ some '*' := by
  have ⟨free, whole⟩ : isReserved name = false ∧ isMisspelled name = false :=
    Each.of_find? h (record?_eq_some.1 held)
  refine ⟨?_, ?_, ?_⟩
  · rintro rfl
    exact absurd free (by decide)
  · rintro rfl
    exact absurd free (by decide)
  · intro star
    simp [isMisspelled, star] at whole

theorem tyOf_star (g : Globals) (text : String) (place : Place) {target : Ty}
    (read : g.tyOf text place = .ok target) :
    g.tyOf ("*" ++ text) place = .ok (.pointerTo target) := by
  refine tyOf_eq_ok.2 ?_
  rw [String.toList_append]
  exact .pointer (tyOf_eq_ok.1 read)

theorem ofRecord_of_several {r : Record} (several : 2 ≤ r.fields.length) :
    Ty.ofRecord r = .record r := by
  unfold Ty.ofRecord
  split
  · rename_i only eq
    simp [eq] at several
  · rfl

/-- By induction on the type: a star is taken off for each pointer, and what is left is a name. -/
theorem Spelled.reads_text {g : Globals} (h : g.Spelled) (place : Place) {t : Ty}
    (expressible : g.Expressible t) : g.tyOf t.text place = .ok t := by
  induction expressible with
  | number => rfl
  | pointer => rfl
  | record held named several =>
    rename_i r
    obtain ⟨notNumber, notPointer, plain⟩ := h.record held
    refine tyOf_eq_ok.2 (.named plain (tyNamed_eq_ok.2 (.inr (.inr ?_))))
    rw [String.ofList_toList]
    exact ⟨notNumber, notPointer, named, r, held, (ofRecord_of_several several).symm⟩
  | pointerTo _ ih => exact g.tyOf_star _ place ih

/-- Two types of a scope that are written alike are the same. -/
theorem Spelled.text_inj {g : Globals} (h : g.Spelled) {t u : Ty} (left : g.Expressible t)
    (right : g.Expressible u) (alike : t.text = u.text) : t = u := by
  have read := h.reads_text .builtin left
  rw [alike, h.reads_text .builtin right] at read
  exact (Except.ok.inj read).symm

/-- **Whatever is defined, and whatever is refused on the way, the text of a type denotes that
type.** -/
theorem tyOf_text (definitions : List Global) (place : Place) {t : Ty}
    (expressible : (initial.defineAll definitions).Expressible t) :
    (initial.defineAll definitions).tyOf t.text place = .ok t :=
  (spelled_initial.defineAll definitions).reads_text place expressible

/-- A record of two numbers. -/
def point : Record := ⟨"Point", [⟨"x", .number⟩, ⟨"y", .number⟩]⟩

/-- Neither the constant with a star in front nor the second record of the name is taken into
scope. -/
theorem tyOf_text_pointers :
    (initial.defineAll [⟨"*Point", .constant 1, .builtin⟩, ⟨"Point", .record point, .builtin⟩,
        ⟨"Point", .record .cstr, .builtin⟩]).tyOf "**Point" .builtin
      = .ok (.pointerTo (.pointerTo (.record point))) := by
  refine tyOf_text [⟨"*Point", .constant 1, .builtin⟩, ⟨"Point", .record point, .builtin⟩,
    ⟨"Point", .record .cstr, .builtin⟩] .builtin (t := .pointerTo (.pointerTo (.record point))) ?_
  apply Expressible.pointerTo
  apply Expressible.pointerTo
  apply Expressible.record
  · decide
  · decide
  · decide

/-- A record of one field is written by its name and read as its word. -/
example : initial.tyOf (Ty.record .cstr).text .builtin = .ok .pointer := rfl

end Globals

/-- In an accepted program every type in scope is read back from its text. -/
theorem Survey.reads_text_of_run {limits : Limits} {tokens : List Token} {s : Survey}
    (ok : (Survey.start limits).run tokens = .ok s) (place : Place) {t : Ty}
    (expressible : s.globals.Expressible t) : s.globals.tyOf t.text place = .ok t := by
  have spelled : s.globals.Spelled := by
    refine Survey.each_of_run (fun accepts => ?_) (s := .start limits) Globals.spelled_initial ok
    obtain ⟨_, defined⟩ := accepts.defined
    exact ⟨Globals.unreserved_of_define defined, Globals.misspelled_of_define defined⟩
  exact spelled.reads_text place expressible

end PinnedStack
