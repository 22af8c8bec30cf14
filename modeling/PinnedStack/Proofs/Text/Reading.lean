import PinnedStack.Proofs.Emission.Defined

/-!
# Reading assembly text

A line ends at a line feed, and a comment goes from `;` to the end of its line.

* `Unbroken` — text without line feeds.
* `codeLines` — the lines of a text without their comments.
* `labelIn?`, `labelsIn` — the label that a line defines, and those of a text.
* `namedBy`, `namedIn` — the labels that the operands of a line name, and those of a text: all words
  behind the name of the instruction that are no numbers and no registers.
* `Legible` — a name that is read back; `Operand.symbolsIn_text` and `Instr.namedBy_text` read the
  labels back that an operand and an instruction name.
-/

namespace PinnedStack

/-- Does a text hold no line feed? -/
def Unbroken (text : String) : Prop := '\n' ∉ text.toList

instance (text : String) : Decidable (Unbroken text) :=
  inferInstanceAs (Decidable ('\n' ∉ text.toList))

theorem Unbroken.append {a b : String} (ha : Unbroken a) (hb : Unbroken b) : Unbroken (a ++ b) := by
  rw [Unbroken, String.toList_append, List.mem_append, not_or]
  exact ⟨ha, hb⟩

/-- Lines that each end at a line feed are told apart, and an empty one stands behind the last line
feed. -/
theorem splitOnP_terminated {lines : List (List Char)} (whole : ∀ line ∈ lines, '\n' ∉ line) :
    (lines.flatMap (· ++ ['\n'])).splitOnP (· == '\n') = lines ++ [[]] := by
  induction lines with
  | nil => rfl
  | cons line lines ih =>
    have here : ∀ c ∈ line, (c == '\n') = false := fun c mem =>
      beq_eq_false_iff_ne.2 fun eq => whole line (List.mem_cons_self ..) (eq ▸ mem)
    have others := ih fun other mem => whole other (List.mem_cons_of_mem _ mem)
    rw [List.flatMap_cons, List.append_assoc, List.singleton_append,
      List.splitOnP_append_cons _ _ (by rfl), List.splitOnP_eq_singleton here, others]
    rfl

namespace Asm

/-! ## Lines and words -/

def isNameChar (c : Char) : Bool := c.isAlphanum || c == '_' || c == '.'

/-- A line without its comment. -/
def withoutComment (line : List Char) : List Char := line.takeWhile (· != ';')

/-- The lines of a text without their comments. -/
def codeLines (text : String) : List (List Char) :=
  (text.toList.splitOnP (· == '\n')).map withoutComment

/-- The label that a line defines: what stands before a `:`, unless the line is indented. -/
def labelIn? (line : List Char) : Option String :=
  if line.head? ≠ some ' ' ∧ ':' ∈ line then some (String.ofList (line.takeWhile (· != ':')))
  else none

/-- The names and numbers in a line. -/
def runsIn (line : List Char) : List (List Char) :=
  (line.splitOnP (!isNameChar ·)).filter (!·.isEmpty)

/-- The names that stand for registers and for sizes. -/
def reservedNames : List (List Char) :=
  ["rax", "rbx", "rcx", "rdx", "rsi", "rdi", "rsp", "r8", "r9", "r10", "r15", "al", "bl", "cl", "dl",
    "r8b", "qword", "byte"].map String.toList

/-- Is it a label rather than a number or a register? -/
def isSymbol (run : List Char) : Bool := run.head?.any (!·.isDigit) && !reservedNames.contains run

/-- The labels in a piece of a line. -/
def symbolsIn (chars : List Char) : List String :=
  ((runsIn chars).filter isSymbol).map String.ofList

/-- The labels that a line names behind the name of its instruction, which is indented. -/
def namedBy (line : List Char) : List String :=
  if line.head? = some ' ' then ((runsIn line).tail.filter isSymbol).map String.ofList else []

/-- The labels that the lines of a text define. -/
def labelsIn (text : String) : List String := (codeLines text).filterMap labelIn?

/-- The labels that the instructions of a text name. -/
def namedIn (text : String) : List String := (codeLines text).flatMap namedBy

/-- Does a name belong to the routine that it stands in? -/
def isLocal (name : String) : Bool := name.toList.head? == some '.'

example : labelsIn "if_0_end: ; :\n    jz .next\n; no: label\nstr_0: db 58\n"
    = ["if_0_end", "str_0"] := by decide +kernel

example : namedIn "if_0_end: ; :\n    jz .next\n    mov rax, str_0 ; x\n    mov [at], rax\n"
    = [".next", "str_0", "at"] := by decide +kernel

/-! ## Words of pieces -/

section Runs

variable {a b : List Char} {c : Char}

theorem runsIn_append_cons (apart : isNameChar c = false) :
    runsIn (a ++ c :: b) = runsIn a ++ runsIn b := by
  rw [runsIn, List.splitOnP_append_cons _ _ (by simp [apart]), List.filter_append]
  rfl

theorem runsIn_cons (apart : isNameChar c = false) : runsIn (c :: b) = runsIn b :=
  runsIn_append_cons (a := []) apart

theorem runsIn_eq_singleton (any : a ≠ []) (name : a.all isNameChar = true) : runsIn a = [a] := by
  rw [runsIn, List.splitOnP_eq_singleton (by simpa using name)]
  simp [any]

theorem symbolsIn_append_cons (apart : isNameChar c = false) :
    symbolsIn (a ++ c :: b) = symbolsIn a ++ symbolsIn b := by
  simp [symbolsIn, runsIn_append_cons apart]

theorem symbolsIn_cons (apart : isNameChar c = false) : symbolsIn (c :: b) = symbolsIn b :=
  symbolsIn_append_cons (a := []) apart

end Runs

/-! ## Names and numbers -/

/-- A name that is read back. -/
structure Legible (name : String) : Prop where
  chars : name.toList.all isNameChar = true
  symbol : isSymbol name.toList = true

theorem Legible.of_mem {name : String} (chars : name.toList.all isNameChar = true)
    (start : name.toList.head?.any (!·.isDigit) = true) (mem : '_' ∈ name.toList) :
    Legible name := by
  refine ⟨chars, ?_⟩
  have apart : ∀ run ∈ reservedNames, '_' ∉ run := by decide +kernel
  have other : name.toList ∉ reservedNames := fun reserved => apart _ reserved mem
  simp [isSymbol, start, other]

theorem Legible.ne_nil {name : String} (h : Legible name) : name.toList ≠ [] := by
  intro empty
  have symbol := h.symbol
  rw [empty] at symbol
  cases symbol

theorem Legible.symbolsIn {name : String} (h : Legible name) :
    symbolsIn name.toList = [name] := by
  simp [Asm.symbolsIn, runsIn_eq_singleton h.ne_nil h.chars, h.symbol]

theorem all_isNameChar_repr (n : Nat) : n.repr.toList.all isNameChar = true := by
  rw [Nat.toList_repr, List.all_eq_true]
  intro c mem
  have digit := Nat.isDigit_of_mem_toDigits (by decide) (by decide) mem
  simp [isNameChar, Char.isAlphanum, digit]

theorem symbolsIn_repr (n : Nat) : symbolsIn n.repr.toList = [] := by
  have digits : ∀ c ∈ n.repr.toList, c.isDigit = true := by
    rw [Nat.toList_repr]
    exact fun c mem => Nat.isDigit_of_mem_toDigits (by decide) (by decide) mem
  cases spelled : n.repr.toList with
  | nil => rfl
  | cons c cs =>
    have name := spelled ▸ all_isNameChar_repr n
    rw [symbolsIn, runsIn_eq_singleton (by simp) name]
    have digit := digits c (spelled ▸ List.mem_cons_self ..)
    simp [isSymbol, digit]

theorem symbolsIn_toString_int (n : Int) : symbolsIn (toString n).toList = [] := by
  rw [Int.toString_eq_repr, Int.repr_eq_if]
  split
  · exact symbolsIn_repr _
  · rw [String.toList_append]
    exact (symbolsIn_cons rfl).trans (symbolsIn_repr _)

theorem not_mem_repr {c : Char} (other : isNameChar c = false) (n : Nat) : c ∉ n.repr.toList := by
  intro mem
  rw [List.all_eq_true.1 (all_isNameChar_repr n) c mem] at other
  cases other

end Asm

end PinnedStack
