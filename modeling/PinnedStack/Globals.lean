import PinnedStack.Op
import PinnedStack.Spelling

/-!
# Global names

Records, constants, memories and functions share one set of names.

* `Meaning` — what a global name stands for. `Globals` — the names defined so far.
* `Globals.define` — refuses names that are reserved, misspelled or taken.
* `Globals.tyOf` — the type that a piece of source text denotes.
-/

namespace PinnedStack

/-- A function as its callers see it: its index among the functions of the program, its label, its
contract, and the names of its inputs, bottom first, where the signature gives them. -/
structure Signature where
  id : Nat
  label : String
  contract : Contract
  params : Option (List (String × Ty))
deriving DecidableEq

/-- What a global name stands for. -/
inductive Meaning where
  | record (record : Record)
  | constant (value : Int64)
  | memory (label : String) (ty : Ty)
  | function (signature : Signature)
deriving DecidableEq

structure Global where
  name : String
  meaning : Meaning
  place : Place
deriving DecidableEq

/-- The definitions made so far. -/
structure Globals where
  entries : List Global
deriving DecidableEq

/-- The type names that are no records. -/
def primitiveTypeNames : List String := ["Number", "Pointer"]

/-- Is a word an operation, a keyword or a primitive type? -/
def isReserved (name : String) : Bool :=
  (Op.builtin? name).isSome || (Keyword.ofText? name).isSome || primitiveTypeNames.contains name

/-- Could the grammar take a name apart? -/
def isMisspelled (name : String) : Bool :=
  name.toList.contains '.' || name.toList.contains ':' || name.toList.head? == some '*'

namespace Globals

/-- The two records that every program starts with. -/
def initial : Globals :=
  ⟨[⟨Record.str.name, .record .str, .builtin⟩, ⟨Record.cstr.name, .record .cstr, .builtin⟩]⟩

/-- The definition of a name. -/
def entry? (g : Globals) (name : String) : Option Global := g.entries.find? (·.name == name)

/-- What a name stands for. -/
def find? (g : Globals) (name : String) : Option Meaning := (g.entry? name).map (·.meaning)

/-- The record of a name. -/
def record? (g : Globals) (name : String) : Option Record :=
  match g.find? name with
  | some (.record r) => some r
  | _ => none

def define (g : Globals) (name : String) (meaning : Meaning) (place : Place) :
    Except Diagnostic Globals :=
  if isReserved name then .error (.malformed place (.reservedName name))
  else if isMisspelled name then .error (.malformed place (.invalidName name))
  else
    match g.entry? name with
    | some previous => .error ⟨place, .duplicate name previous.place⟩
    | none => .ok ⟨⟨name, meaning, place⟩ :: g.entries⟩

/-- The type that a name without stars denotes. -/
def tyNamed (g : Globals) (name : String) (place : Place) : Except Diagnostic Ty :=
  if name = "Number" then .ok .number
  else if name = "Pointer" then .ok .pointer
  else if name = "" then .error (.malformed place .missingType)
  else
    match g.record? name with
    | some r => .ok (.ofRecord r)
    | none => .error ⟨place, .unresolved name⟩

/-- The type that characters denote: every star in front is one pointer. -/
def tyOfChars (g : Globals) (place : Place) : List Char → Except Diagnostic Ty
  | '*' :: rest =>
      match g.tyOfChars place rest with
      | .ok target => .ok (.pointerTo target)
      | .error d => .error d
  | chars => g.tyNamed (String.ofList chars) place

/-- The type that a piece of text denotes. -/
def tyOf (g : Globals) (text : String) (place : Place) : Except Diagnostic Ty :=
  g.tyOfChars place text.toList

/-- Behind the stars there stands a name. -/
theorem tyOfChars_plain (g : Globals) (place : Place) {chars : List Char}
    (plain : chars.head? ≠ some '*') :
    g.tyOfChars place chars = g.tyNamed (String.ofList chars) place := by
  unfold tyOfChars
  split
  · exact absurd rfl plain
  · rfl

/-! ### What is found -/

theorem record?_eq_some {g : Globals} {name : String} {r : Record} :
    g.record? name = some r ↔ g.find? name = some (.record r) := by
  unfold record?
  split <;> simp_all

/-- A definition is accepted just if its name is neither reserved nor misspelled nor taken. -/
theorem define_eq_ok {g next : Globals} {name : String} {meaning : Meaning} {place : Place} :
    g.define name meaning place = .ok next ↔ isReserved name = false ∧ isMisspelled name = false
      ∧ g.entry? name = none ∧ next = ⟨⟨name, meaning, place⟩ :: g.entries⟩ := by
  unfold define
  constructor
  · intro ok
    split at ok
    · cases ok
    · rename_i free
      split at ok
      · cases ok
      · rename_i whole
        split at ok
        · cases ok
        · rename_i fresh
          cases ok
          exact ⟨Bool.eq_false_iff.2 free, Bool.eq_false_iff.2 whole, fresh, rfl⟩
  · rintro ⟨free, whole, fresh, rfl⟩
    simp only [free, whole, fresh, Bool.false_eq_true, if_false]

/-- A definition is found under its name and hides no other. -/
theorem find?_define {g next : Globals} {name : String} {meaning : Meaning} {place : Place}
    (h : g.define name meaning place = .ok next) (other : String) :
    next.find? other = if name = other then some meaning else g.find? other := by
  obtain ⟨-, -, -, rfl⟩ := define_eq_ok.1 h
  by_cases eq : name = other
  · simp [find?, entry?, eq]
  · simp [find?, entry?, eq]

/-! ### What types are denoted -/

theorem tyNamed_eq_ok {g : Globals} {name : String} {place : Place} {ty : Ty} :
    g.tyNamed name place = .ok ty ↔ name = "Number" ∧ ty = .number
      ∨ name = "Pointer" ∧ ty = .pointer
      ∨ name ≠ "Number" ∧ name ≠ "Pointer" ∧ name ≠ ""
        ∧ ∃ r, g.record? name = some r ∧ ty = .ofRecord r := by
  unfold tyNamed
  constructor
  · intro ok
    split at ok
    · rename_i number
      cases ok
      exact .inl ⟨number, rfl⟩
    · rename_i notNumber
      split at ok
      · rename_i pointer
        cases ok
        exact .inr (.inl ⟨pointer, rfl⟩)
      · rename_i notPointer
        split at ok
        · cases ok
        · rename_i any
          split at ok
          · rename_i r known
            cases ok
            exact .inr (.inr ⟨notNumber, notPointer, any, r, known, rfl⟩)
          · cases ok
  · rintro (⟨rfl, rfl⟩ | ⟨rfl, rfl⟩ | ⟨notNumber, notPointer, any, r, known, rfl⟩)
    · rfl
    · rfl
    · rw [if_neg notNumber, if_neg notPointer, if_neg any, known]

/-- The characters of a type: stars, each for one pointer, and a name. -/
inductive TypeOf (g : Globals) (place : Place) : List Char → Ty → Prop where
  | named {chars : List Char} {ty : Ty} (plain : chars.head? ≠ some '*')
      (named : g.tyNamed (String.ofList chars) place = .ok ty) : TypeOf g place chars ty
  | pointer {chars : List Char} {target : Ty} (inner : TypeOf g place chars target) :
      TypeOf g place ('*' :: chars) (.pointerTo target)

/-- By induction on the characters. -/
theorem tyOfChars_eq_ok {g : Globals} {place : Place} {chars : List Char} {ty : Ty} :
    g.tyOfChars place chars = .ok ty ↔ g.TypeOf place chars ty := by
  constructor
  · intro ok
    induction chars generalizing ty with
    | nil => exact .named (by simp) ok
    | cons c rest ih =>
      by_cases star : c = '*'
      · subst star
        simp only [tyOfChars] at ok
        split at ok
        · rename_i target here
          cases ok
          exact .pointer (ih here)
        · cases ok
      · have plain : (c :: rest).head? ≠ some '*' := by simpa using star
        rw [tyOfChars_plain g place plain] at ok
        exact .named plain ok
  · intro h
    induction h with
    | named plain named => rw [tyOfChars_plain g place plain, named]
    | pointer _ ih => rw [tyOfChars, ih]

theorem tyOf_eq_ok {g : Globals} {text : String} {place : Place} {ty : Ty} :
    g.tyOf text place = .ok ty ↔ g.TypeOf place text.toList ty := tyOfChars_eq_ok

end Globals

/-- Refuses the names that no pin may have. -/
def checkPinName (name : String) (place : Place) : Except Diagnostic Unit :=
  let chars := name.toList
  if chars.isEmpty || chars.contains '.' || chars.getLast? == some '!' || chars.getLast? == some '@'
  then .error (.malformed place (.invalidPinName name))
  else if isReserved name then .error (.malformed place (.reservedPinName name))
  else .ok ()

end PinnedStack
