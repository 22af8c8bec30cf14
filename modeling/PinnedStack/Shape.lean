import PinnedStack.Contract

/-!
# The abstract stack

* `Cell` — the type of one word and the place that produced it.
* `Shape` — a stack of cells. The top cell stands first, so what lies below a part of a stack is
  appended to it.
* `Shape.diff` — compares two stacks from the bottom and reports word by word.
* `Contract.applyTo` — runs a contract on a stack.
-/

namespace PinnedStack

/-- One word of the abstract stack, with the place of the operation that left it. -/
structure Cell where
  ty : Ty
  origin : Place
deriving DecidableEq, Inhabited

/-- How reports show a cell. -/
def Cell.text (c : Cell) : String := s!"{c.ty.text} ({c.origin.text})"

/-- A stack of words, top first. -/
structure Shape where
  cells : List Cell
deriving DecidableEq, Inhabited

namespace Shape

def empty : Shape := ⟨[]⟩

def size (s : Shape) : Nat := s.cells.length

def isEmpty (s : Shape) : Bool := s.cells.isEmpty

/-- The cells with the bottom first. -/
def bottomFirst (s : Shape) : List Cell := s.cells.reverse

/-- Puts one cell back. -/
def pushCell (s : Shape) (c : Cell) : Shape := ⟨c :: s.cells⟩

/-- Puts a value on top, one cell per word. -/
def push (s : Shape) (t : Ty) (origin : Place) : Shape :=
  ⟨(t.words.map (⟨·, origin⟩)).reverse ++ s.cells⟩

/-- Puts values on top, the last one ending up highest. -/
def pushAll (s : Shape) (ts : List Ty) (origin : Place) : Shape :=
  ts.foldl (fun s t => s.push t origin) s

/-- The stack that holds the given values, bottom first. -/
def ofTys (ts : List Ty) (origin : Place) : Shape := empty.pushAll ts origin

def peek? (s : Shape) : Option Cell := s.cells.head?

/-- The types from the bottom, as messages show them. -/
def text (s : Shape) : String :=
  "[" ++ String.intercalate ", " (s.bottomFirst.map (·.ty.text)) ++ "]"

/-- The number of words and their types, as messages show them. -/
def counted (s : Shape) : String := s!"{s.size} word(s) {s.text}"

/-- The refusal of an operation that needs more words than there are. -/
def lacking (s : Shape) (op : String) (required : Nat) (place : Place) : Diagnostic :=
  ⟨place, .underflow op required s.size⟩

/-- Refuses a stack of fewer than `count` words. -/
def require (s : Shape) (op : String) (count : Nat) (place : Place) : Except Diagnostic Unit :=
  if s.size < count then .error (s.lacking op count place) else .ok ()

/-- Takes `count` words off the top. They are given bottom first, with the stack below them. -/
def take (s : Shape) (op : String) (count : Nat) (place : Place) :
    Except Diagnostic (List Cell × Shape) :=
  if s.size < count then .error (s.lacking op count place)
  else .ok ((s.cells.take count).reverse, ⟨s.cells.drop count⟩)

def pop (s : Shape) (op : String) (place : Place) : Except Diagnostic (Cell × Shape) :=
  match s.cells with
  | [] => .error (s.lacking op 1 place)
  | c :: rest => .ok (c, ⟨rest⟩)

/-- Takes the top word off and compares it with the expected type. The word is gone also where the
comparison fails; only an empty stack is left as it was. -/
def popExpecting (s : Shape) (op : String) (expected : Ty) (place : Place) :
    Except Diagnostic Cell × Shape :=
  match s.cells with
  | [] => (.error (s.lacking op 1 place), s)
  | c :: rest =>
      if c.ty.fits expected then (.ok c, ⟨rest⟩)
      else (.error ⟨place, .mismatch op expected.text c.ty.text⟩, ⟨rest⟩)

/-- The stack left by taking off a word of the expected type. -/
def drop (s : Shape) (op : String) (expected : Ty) (place : Place) : Except Diagnostic Shape :=
  match s.popExpecting op expected place with
  | (.ok _, rest) => .ok rest
  | (.error d, _) => .error d

/-- Takes off words of the expected types, the first of which is the highest. -/
def dropAll (s : Shape) (op : String) (place : Place) : List Ty → Except Diagnostic Shape
  | [] => .ok s
  | t :: ts =>
      match s.drop op t place with
      | .ok rest => rest.dropAll op place ts
      | .error d => .error d

/-- Takes off the words of a value. -/
def dropValue (s : Shape) (op : String) (t : Ty) (place : Place) : Except Diagnostic Shape :=
  match s.require op t.width place with
  | .ok () => s.dropAll op place t.words.reverse
  | .error d => .error d

/-- What is taken off and what is left make up the stack. -/
theorem take_eq_ok {s rest : Shape} {op : String} {count : Nat} {place : Place} {cells : List Cell}
    (h : s.take op count place = .ok (cells, rest)) :
    s.cells = cells.reverse ++ rest.cells ∧ cells.length = count := by
  unfold take at h
  split at h
  · cases h
  · rename_i enough
    cases h
    simp only [List.reverse_reverse, List.take_append_drop, List.length_reverse, List.length_take,
      true_and]
    exact Nat.min_eq_left (Nat.le_of_not_lt enough)

@[simp] theorem size_push (s : Shape) (t : Ty) (origin : Place) :
    (s.push t origin).size = s.size + t.width := by
  simp [push, size, Nat.add_comm]

/-! ## Comparing stacks -/

/-- How two stacks compare. Types are compared where the stacks are equally high. -/
inductive Verdict where
  | equal
  | sizeDifference
  | typeDifference
deriving DecidableEq

/-- A comparison with its report, one line per position from the bottom. -/
structure Diff where
  verdict : Verdict
  report : String
deriving DecidableEq

def Diff.isEqual (d : Diff) : Bool := d.verdict == .equal

/-- The positions of two stacks side by side, from the bottom. -/
def pairs (a b : Shape) : List (Option Cell × Option Cell) :=
  List.zipWithAll Prod.mk a.bottomFirst b.bottomFirst

/-- Do both stacks hold a word at a position, and do the two match? -/
def agree : Option Cell × Option Cell → Bool
  | (some l, some r) => l.ty.fits r.ty
  | _ => false

/-- How reports show a position that may be missing. -/
def describe : Option Cell → String
  | some c => c.text
  | none => "-"

/-- Fills a text with spaces up to `width` characters. -/
def padded (width : Nat) (s : String) : String := s.pushn ' ' (width - s.length)

def reportLine (i : Nat) (p : Option Cell × Option Cell) : String :=
  let mark := if agree p then "==" else "!="
  let left := padded 32 (describe p.1)
  s!"  [{i}] {left} {mark} {describe p.2}\n"

/-- Compares two stacks: the same number of words, matching position by position. -/
def diff (a b : Shape) : Diff :=
  let pairs := a.pairs b
  let verdict :=
    if a.size = b.size then
      if pairs.all agree then .equal else .typeDifference
    else .sizeDifference
  ⟨verdict, String.join (pairs.zipIdx.map fun (p, i) => reportLine i p)⟩

end Shape

/-- Runs a contract on a stack: the inputs have to be on top, word by word, and the outputs take
their place. Of several mismatches the highest is reported. -/
def Contract.applyTo (c : Contract) (s : Shape) (op : String) (place : Place) :
    Except Diagnostic Shape :=
  let expected := c.inputs.flatMap Ty.words
  match s.take op expected.length place with
  | .error d => .error d
  | .ok (cells, rest) =>
      match (cells.zip expected).reverse.find? fun (cell, wanted) => !cell.ty.fits wanted with
      | some (cell, wanted) => .error ⟨place, .mismatch op wanted.text cell.ty.text⟩
      | none => .ok (rest.pushAll c.outputs place)

end PinnedStack
