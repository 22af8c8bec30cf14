import PinnedStack.Fault

/-!
# Types of stack values

A value on the data stack is a run of 64-bit words.

* `Kind` — what one word holds. `Field`, `Record` — named runs of words.
* `Ty` — a word, a typed pointer or a record; `Ty.words` gives the words it occupies.
* `Ty.fits` — equality up to the pointee of a pointer.
* `Ty.plus` / `Ty.minus` — the typing rules of `+` and `-`.
-/

namespace PinnedStack

/-- Bytes in one machine word. -/
def wordBytes : Nat := 8

/-- What a machine word holds. `runtime` is whatever the pin of this kind was last bound to;
`unknown` stands for an error and matches nothing. -/
inductive Kind where
  | number
  | pointer
  | runtime
  | unknown
deriving DecidableEq, Inhabited

/-- The name of a kind in types and messages. -/
def Kind.text : Kind → String
  | number => "Number"
  | pointer => "Pointer"
  | runtime => "Runtime"
  | unknown => "Unknown"

/-- A named word of a record. -/
structure Field where
  name : String
  kind : Kind
deriving DecidableEq, Inhabited

/-- A field together with its byte offset from the start of the record. -/
structure PlacedField where
  name : String
  offset : Nat
  kind : Kind
deriving DecidableEq, Inhabited

/-- A named list of fields; each takes one word, in order. -/
structure Record where
  name : String
  fields : List Field
deriving DecidableEq, Inhabited

namespace Record

/-- A length below the address of the first byte. -/
def str : Record := ⟨"str", [⟨"length", .number⟩, ⟨"start", .pointer⟩]⟩

/-- The address of bytes that end at the first zero. -/
def cstr : Record := ⟨"cstr", [⟨"start", .pointer⟩]⟩

/-- The fields with their offsets: field `i` starts `i` words into the record. -/
def layout (r : Record) : List PlacedField :=
  r.fields.zipIdx.map fun (f, i) => ⟨f.name, i * wordBytes, f.kind⟩

/-- The first field of a name. -/
def field? (r : Record) (name : String) : Option PlacedField :=
  r.layout.find? (·.name == name)

def size (r : Record) : Nat := r.fields.length * wordBytes

@[simp] theorem length_layout (r : Record) : r.layout.length = r.fields.length := by
  simp [layout]

end Record

/-- The type of a value: one word, the address of a value of a known type, or one word per field. -/
inductive Ty where
  | word (kind : Kind)
  | pointerTo (target : Ty)
  | record (record : Record)
deriving DecidableEq, Inhabited

namespace Ty

@[match_pattern] abbrev number : Ty := .word .number
@[match_pattern] abbrev pointer : Ty := .word .pointer
@[match_pattern] abbrev runtime : Ty := .word .runtime
@[match_pattern] abbrev unknown : Ty := .word .unknown

/-- The type of a record's values; a record of one field is just that word. -/
def ofRecord (r : Record) : Ty :=
  match r.fields with
  | [only] => .word only.kind
  | _ => .record r

/-- The type of a string literal. -/
def str : Ty := ofRecord Record.str

/-- How a type is written. -/
def text : Ty → String
  | word kind => kind.text
  | pointerTo target => "*" ++ target.text
  | record r => r.name

def size : Ty → Nat
  | record r => r.size
  | _ => wordBytes

/-- The words a value occupies, bottom first. -/
def words : Ty → List Ty
  | record r => r.fields.map (.word ·.kind)
  | t => [t]

/-- Number of words. -/
def width : Ty → Nat
  | record r => r.fields.length
  | _ => 1

@[simp] theorem length_words (t : Ty) : t.words.length = t.width := by
  cases t <;> simp [words, width]

theorem size_eq (t : Ty) : t.size = t.width * wordBytes := by
  cases t <;> simp [size, width, Record.size]

/-- Is it an address, of whatever target? -/
def isPointer : Ty → Bool
  | word .pointer => true
  | pointerTo _ => true
  | _ => false

def isRuntime : Ty → Bool
  | word .runtime => true
  | _ => false

def isRecord : Ty → Bool
  | record _ => true
  | _ => false

/-- The type a typed pointer leads to. -/
def target? : Ty → Option Ty
  | pointerTo target => some target
  | _ => none

/-- The kind of a type that takes one word by its form. -/
def kind? : Ty → Option Kind
  | word kind => some kind
  | pointerTo _ => some .pointer
  | record _ => none

/-- Is it a number or an address? -/
def isConcrete (t : Ty) : Bool := t.kind? == some .number || t.kind? == some .pointer

/-- May a value of one type stand where the other is wanted? Any two pointers may; an unknown word
never does; else the types have to be equal. -/
def fits (a b : Ty) : Bool :=
  if a.isPointer && b.isPointer then true
  else match a, b with
    | word .unknown, _ => false
    | _, word .unknown => false
    | word k, word l => k == l
    | record r, record s => r == s
    | _, _ => false

/-- Refuses anything but a number as an operand of `op`. -/
def expectNumber (op : String) (t : Ty) : Except Fault Unit :=
  if t.fits number then .ok () else .error (.mismatch op number.text t.text)

/-- The type of `a + b`: an address may be moved by a number, from either side. -/
def plus (a b : Ty) : Except Fault Ty :=
  match a.isPointer, b.isPointer with
  | true, true => .error (.mismatch "+" "at most one pointer operand" s!"{a.text} and {b.text}")
  | true, false => do
      b.expectNumber "+"
      return a
  | false, true => do
      a.expectNumber "+"
      return b
  | false, false => do
      a.expectNumber "+"
      b.expectNumber "+"
      return number

/-- The type of `a - b`: two addresses lie a number apart, and a number may be taken from an
address but not the other way round. -/
def minus (a b : Ty) : Except Fault Ty :=
  match a.isPointer, b.isPointer with
  | true, true => .ok number
  | true, false => do
      b.expectNumber "-"
      return a
  | false, true =>
      .error (.mismatch "-" number.text s!"{b.text} (cannot subtract a pointer from a number)")
  | false, false => do
      a.expectNumber "-"
      b.expectNumber "-"
      return number

/-- An address takes one word. -/
theorem words_of_isPointer {t : Ty} (h : t.isPointer = true) : t.words = [t] := by
  cases t with
  | record _ => cases h
  | _ => rfl

theorem kind?_of_isPointer {t : Ty} (h : t.isPointer = true) : t.kind? = some .pointer := by
  match t, h with
  | .word .pointer, _ => rfl
  | .pointerTo _, _ => rfl

theorem ne_number_of_isPointer {t : Ty} (h : t.isPointer = true) : t ≠ number := by
  rintro rfl
  cases h

theorem fits_comm (a b : Ty) : a.fits b = b.fits a := by
  unfold fits
  rw [Bool.and_comm]
  split
  · rfl
  · cases a with
    | word k => cases b with
      | word l => cases k <;> cases l <;> rfl
      | pointerTo _ => cases k <;> rfl
      | record _ => cases k <;> rfl
    | pointerTo _ => cases b with
      | word l => cases l <;> rfl
      | pointerTo _ => rfl
      | record _ => rfl
    | record r => cases b with
      | word l => cases l <;> rfl
      | pointerTo _ => rfl
      | record s => exact BEq.comm

end Ty

end PinnedStack
