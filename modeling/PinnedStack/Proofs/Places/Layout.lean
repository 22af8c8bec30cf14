import PinnedStack.Proofs.Places.Verification
import PinnedStack.Proofs.Text.Data

/-!
# Layout and file names do not reach the code

* `Asm.uncommented` — a text without its comment lines. `Asm.uncommented_textOf` — in the text of a
  program these are its remarks.
* `Node.codeOf_unplaced`, `Program.codeOf_unplaced` — a tree without places has the same code.
* `compile_layout` — texts of the same tokens have the same code, or faults of one kind.
-/

namespace PinnedStack

open Asm

/-! ## Texts without comment lines -/

namespace Asm

/-- Is a whole line a comment? -/
def isCommentLine (line : List Char) : Bool := (line.dropWhile Char.isWhitespace).head? == some ';'

/-- A text without the lines that are comments as a whole. -/
def uncommented (text : String) : String :=
  String.ofList (['\n'].intercalate
    ((text.toList.splitOnP (· == '\n')).filter (!isCommentLine ·)))

example : uncommented "; a\nf:\n    ; b\n    ret ; c\n" = "f:\n    ret ; c\n" := by decide +kernel

/-- Is a line a remark and nothing else? -/
def Line.isRemark : Line → Bool
  | comment _ => true
  | remark _ => true
  | _ => false

/-- The lines that are no remarks. -/
def codeOf (lines : List Line) : List Line := lines.filter (!·.isRemark)

@[simp] theorem codeOf_append (a b : List Line) : codeOf (a ++ b) = codeOf a ++ codeOf b :=
  List.filter_append ..

@[simp] theorem codeOf_instr (i : Instr) (lines : List Line) :
    codeOf (.instr i :: lines) = .instr i :: codeOf lines := rfl

@[simp] theorem codeOf_blank (lines : List Line) :
    codeOf (.blank :: lines) = .blank :: codeOf lines := rfl

@[simp] theorem codeOf_label (name : String) (lines : List Line) :
    codeOf (.label name :: lines) = .label name :: codeOf lines := rfl

@[simp] theorem codeOf_comment (text : String) (lines : List Line) :
    codeOf (.comment text :: lines) = codeOf lines := rfl

/-- A line that starts with a character of a name, apart from blanks, is no comment. -/
theorem isCommentLine_of_name {chars : List Char} (blanks : List Char)
    (blank : ∀ b ∈ blanks, b.isWhitespace = true) (name : chars.head?.any isNameChar = true) :
    isCommentLine (blanks ++ chars) = false := by
  cases chars with
  | nil => cases name
  | cons c rest =>
    have name : isNameChar c = true := name
    have visible : c.isWhitespace = false := by
      cases blank : c.isWhitespace with
      | false => rfl
      | true =>
        simp only [Char.isWhitespace, Bool.or_eq_true, decide_eq_true_eq] at blank
        rcases blank with ((rfl | rfl) | rfl) | rfl
        all_goals cases name
    have other : c ≠ ';' := isNameChar_ne name rfl
    rw [isCommentLine, List.dropWhile_append_of_pos blank]
    simp [visible, other]

/-- What starts with a word starts with a character of a name. -/
theorem head_of_word {word rest : List Char} (chars : word.all isNameChar = true) (any : word ≠ []) :
    (word ++ rest).head?.any isNameChar = true := by
  cases word with
  | nil => exact absurd rfl any
  | cons c cs =>
    rw [List.all_cons, Bool.and_eq_true] at chars
    exact chars.1

/-- **A line of the text is a comment if it was a remark.** -/
theorem Line.Legible.isCommentLine_chars {line : Line} (legible : line.Legible) :
    isCommentLine line.chars = line.isRemark := by
  have defining {name : String} (defines : line.defines? = some name) :
      isCommentLine line.chars = false := by
    obtain ⟨rest, spelled⟩ := chars_of_defines defines
    rw [spelled]
    have named := Line.Legible.of_defines legible defines
    exact isCommentLine_of_name [] nofun (head_of_word named.chars named.ne_nil)
  cases line with
  | instr i =>
    obtain ⟨name, any⟩ := i.isWord_mnemonic
    refine isCommentLine_of_name indent (List.all_eq_true.1 (by decide)) ?_
    rw [i.toList_text]
    exact head_of_word name any
  | label | bytes | reserve => exact defining rfl
  | comment text => rfl
  | remark text =>
    have spelled : (Line.remark text).chars = "; ".toList ++ text.toList := String.toList_append
    rw [spelled]
    rfl
  | blank => rfl
  | bits64 => rfl
  | sectionStart name =>
    have spelled : (Line.sectionStart name).chars = "section ".toList ++ name.toList :=
      String.toList_append
    rw [spelled]
    rfl
  | globalLabel name =>
    have spelled : (Line.globalLabel name).chars = "global ".toList ++ name.toList :=
      String.toList_append
    rw [spelled]
    rfl

/-- **The lines of a text without comments are those that are no remarks.** -/
theorem uncommented_textOf {lines : List Line} (legible : ∀ line ∈ lines, line.Legible) :
    uncommented (textOf lines) = textOf (codeOf lines) := by
  have whole : ∀ line ∈ lines, '\n' ∉ line.chars := fun line mem => (legible line mem).reads.whole
  have kept : (lines.map Line.chars).filter (!isCommentLine ·) = (codeOf lines).map Line.chars := by
    rw [List.filter_map, codeOf]
    congr 1
    exact List.filter_congr fun line mem => by
      simp [(legible line mem).isCommentLine_chars]
  have code : ∀ line ∈ codeOf lines, '\n' ∉ line.chars :=
    fun line mem => whole line (List.mem_of_mem_filter mem)
  have last : ([[]] : List (List Char)).filter (!isCommentLine ·) = [[]] := rfl
  rw [uncommented, splitOnP_textOf whole, List.filter_append, kept, last, ← splitOnP_textOf code]
  have joined : ['\n'].intercalate ((textOf (codeOf lines)).toList.splitOnP (· == '\n'))
      = (textOf (codeOf lines)).toList := List.intercalate_splitOn '\n'
  rw [joined, String.ofList_toList]

end Asm

/-! ## Code -/

mutual

@[simp] theorem Node.codeOf_unplaced : (n : Node) → codeOf n.unplaced.lines = codeOf n.lines
  | .op _ _ => by rw [Node.unplaced, Node.lines, Node.lines]
  | .call _ _ => by rw [Node.unplaced, Node.lines, Node.lines]
  | .ifTrue body _ _ => by simp [Node.unplaced, Node.lines, codeOf_unplacedAll body]
  | .ifFalse body _ _ => by simp [Node.unplaced, Node.lines, codeOf_unplacedAll body]
  | .ifElse yes no _ _ => by
    simp [Node.unplaced, Node.lines, codeOf_unplacedAll yes, codeOf_unplacedAll no]
  | .loop _ condition body _ _ => by
    simp [Node.unplaced, Node.lines, codeOf_unplacedAll condition, codeOf_unplacedAll body]

@[simp] theorem codeOf_unplacedAll : (ns : List Node) →
    codeOf (linesOf (unplacedAll ns)) = codeOf (linesOf ns)
  | [] => by rw [unplacedAll]
  | n :: ns => by simp [linesOf, n.codeOf_unplaced, codeOf_unplacedAll ns]

end

@[simp] theorem Func.codeOf_unplaced (f : Func) : codeOf f.unplaced.lines = codeOf f.lines := by
  simp [Func.lines, Func.unplaced, Func.slots]

/-- **A program without places has the same code.** -/
theorem Program.codeOf_unplaced (p : Program) (tables : Tables) (limits : Limits) :
    codeOf (p.unplaced.lines tables limits) = codeOf (p.lines tables limits) := by
  have entry : codeOf (entryLines p.main.unplaced) = codeOf (entryLines p.main) := by
    simp [entryLines, Func.unplaced]
  have functions : codeOf ((p.functions.map Func.unplaced).flatMap Func.lines)
      = codeOf (p.functions.flatMap Func.lines) := by
    induction p.functions with
    | nil => rfl
    | cons f fs ih => simp [ih]
  simp only [Program.lines, Program.unplaced, codeOf_append, entry, functions]

/-! ## Two texts -/

/-- The text of a program without comments is the text of its code. -/
theorem Program.uncommented_asm {limits : Limits} {source file : String} {p : Program}
    {tables : Tables} (whole : Unbroken file)
    (checked : check limits source file = .ok (p, tables)) :
    uncommented (p.asm tables limits) = textOf (codeOf (p.lines tables limits)) := by
  obtain ⟨spelled, -⟩ := check_eq_ok.1 checked
  have tidy := Program.tidy_of_ofText whole spelled
  obtain ⟨text, -, spelled⟩ := Program.ofText_eq_ok spelled
  exact uncommented_textOf (tidy.legible (Program.formed_of_ofTokens spelled))

/-- **Layout and file names do not reach the code.** Texts whose tokens are the same, wherever they
stand, are refused with faults of one kind, or their assembly texts are the same but for comment
lines. -/
theorem compile_layout (limits : Limits) {source other file otherFile : String} {x y : Scanned}
    (scanned : Scanned.ofText source file = .ok x)
    (scannedOther : Scanned.ofText other otherFile = .ok y)
    (agree : x.tokens.map (fun t => (t.kind, t.lexeme)) = y.tokens.map fun t => (t.kind, t.lexeme))
    (whole : Unbroken file) (wholeOther : Unbroken otherFile) :
    (∃ d e, compile limits source file = .error d ∧ compile limits other otherFile = .error e
      ∧ d.fault.kind = e.fault.kind)
    ∨ ∃ a b, compile limits source file = .ok a ∧ compile limits other otherFile = .ok b
      ∧ uncommented a = uncommented b := by
  have stripped : ∀ ts : List Token, ts.map Token.unplaced
      = (ts.map fun t => (t.kind, t.lexeme)).map fun s => ⟨s.1, s.2, .builtin⟩ :=
    fun ts => by rw [List.map_map]; rfl
  have same : x.unplaced = y.unplaced := by
    rw [Scanned.unplaced, Scanned.unplaced, stripped, stripped, agree]
  have read := x.mirrors_check limits
  have readOther := y.mirrors_check limits
  rw [← check_of_scanned scanned, same] at read
  rw [← check_of_scanned scannedOther] at readOther
  rcases read.same readOther with ⟨d, e, refused, refusedOther, kind⟩ | found
  · exact .inl ⟨d, e, by rw [compile, refused]; rfl, by rw [compile, refusedOther]; rfl, kind⟩
  · obtain ⟨⟨p, tables⟩, ⟨q, others⟩, checked, checkedOther, eq⟩ := found
    obtain ⟨trees, data⟩ := Prod.mk.inj eq
    obtain rfl : tables = others := data
    refine .inr ⟨p.asm tables limits, q.asm tables limits, by rw [compile, checked]; rfl,
      by rw [compile, checkedOther]; rfl, ?_⟩
    calc uncommented (p.asm tables limits)
      _ = textOf (codeOf (p.lines tables limits)) := Program.uncommented_asm whole checked
      _ = textOf (codeOf (p.unplaced.lines tables limits)) := by rw [Program.codeOf_unplaced]
      _ = textOf (codeOf (q.unplaced.lines tables limits)) := by rw [trees]
      _ = textOf (codeOf (q.lines tables limits)) := by rw [Program.codeOf_unplaced]
      _ = uncommented (q.asm tables limits) := (Program.uncommented_asm wholeOther checkedOther).symm

/-- A branch in a function, on one line. -/
def onOneLine : String := ": f ( -- ) 1 if 2 print ; ; f"

/-- The same tokens on several lines, and comments. -/
def onManyLines : String := ": f ( -- ) // prints\n\t1 if\n\t2 print ;\n;\nf // end"

/-- Both are compiled, and the code is the same. -/
theorem compile_layout_lines :
    ∃ a b, compile {} onOneLine "one.st" = .ok a ∧ compile {} onManyLines "many.st" = .ok b
      ∧ uncommented a = uncommented b := by
  obtain ⟨x, y, both, agree⟩ := Except.exists_eq_ok
    (x := do return (← Scanned.ofText onOneLine "one.st", ← Scanned.ofText onManyLines "many.st"))
    (q := fun (x, y) => x.tokens.map (fun t => (t.kind, t.lexeme))
      == y.tokens.map fun t => (t.kind, t.lexeme))
    (by decide +kernel)
  obtain ⟨_, scanned, both⟩ := Except.bind_eq_ok.1 both
  obtain ⟨_, scannedOther, eq⟩ := Except.bind_eq_ok.1 both
  cases eq
  obtain ⟨p, tables, checked, -⟩ := Except.exists_eq_ok (x := check {} onOneLine "one.st")
    (q := fun _ => true) (by decide +kernel)
  have compiled : compile {} onOneLine "one.st" = .ok (p.asm tables {}) := by
    rw [compile, checked]
    rfl
  rcases compile_layout {} scanned scannedOther (beq_iff_eq.1 agree) (by decide) (by decide) with
    ⟨d, e, refused, -⟩ | ok
  · rw [compiled] at refused
    cases refused
  · exact ok

end PinnedStack
