import Mathlib.Data.List.TakeWhile
import PinnedStack.Proofs.Text.Reading

/-!
# Emitted lines are read back

* `Operand.Legible`, `Instr.Legible`, `Line.Legible` — all names in it are read back, and no remark
  holds a line feed.
* `Line.chars` — a line as it stands in the text. `Line.Legible.reads` — what is read of it.
* `splitOnP_textOf` — the lines of a text.
* `labelsIn_textOf`, `namedIn_textOf` — what is read of a text is what its lines say.
-/

namespace PinnedStack.Asm

/-! ## Operands -/

/-- An operand whose label is read back and whose character is no sign of the text's own. -/
def Operand.Legible (o : Operand) : Prop :=
  (∀ l ∈ o.symbols, Asm.Legible l) ∧ ∀ c, o = .char c → c = '0' ∨ c = '-'

theorem Mem.symbolsIn_text {m : Mem} (legible : ∀ l ∈ m.symbols, Asm.Legible l) :
    symbolsIn m.text.toList = m.symbols := by
  cases m with
  | «at» base => cases base <;> decide +kernel
  | offset base bytes =>
    have spelled : (Mem.offset base bytes).text.toList
        = '[' :: (base.text.toList ++ ' ' :: '+' :: ' ' :: (bytes.repr.toList ++ ']' :: [])) := by
      simp [Mem.text]
      rfl
    have name : symbolsIn base.text.toList = [] := by cases base <;> decide +kernel
    rw [spelled, symbolsIn_cons rfl, symbolsIn_append_cons rfl, symbolsIn_cons rfl,
      symbolsIn_cons rfl, symbolsIn_append_cons rfl, name, symbolsIn_repr]
    rfl
  | symbol name =>
    have spelled : (Mem.symbol name).text.toList = '[' :: (name.toList ++ ']' :: []) := by
      simp [Mem.text]
      rfl
    rw [spelled, symbolsIn_cons rfl, symbolsIn_append_cons rfl,
      (legible name (List.mem_singleton_self _)).symbolsIn]
    rfl

theorem Operand.symbolsIn_text {o : Operand} (legible : o.Legible) :
    symbolsIn o.text.toList = o.symbols := by
  cases o with
  | reg r => cases r <;> decide +kernel
  | low r => cases r <;> decide +kernel
  | mem m => exact m.symbolsIn_text legible.1
  | qword m =>
    have spelled : (qword m).text.toList = "qword".toList ++ ' ' :: m.text.toList :=
      String.toList_append
    rw [spelled, symbolsIn_append_cons rfl, m.symbolsIn_text legible.1]
    rfl
  | byte m =>
    have spelled : (byte m).text.toList = "byte".toList ++ ' ' :: m.text.toList :=
      String.toList_append
    rw [spelled, symbolsIn_append_cons rfl, m.symbolsIn_text legible.1]
    rfl
  | imm n => exact symbolsIn_toString_int n
  | char c => rcases legible.2 c rfl with rfl | rfl <;> decide +kernel
  | address label => exact (legible.1 label (List.mem_singleton_self _)).symbolsIn

/-! ## Instructions -/

def Instr.mnemonic : Instr → String
  | push _ => "push"
  | pop _ => "pop"
  | mov _ _ => "mov"
  | movzx _ _ => "movzx"
  | lea _ _ => "lea"
  | arith op _ _ => op.text
  | unary op _ => op.text
  | cmp _ _ => "cmp"
  | test _ _ => "test"
  | cqo => "cqo"
  | set cond _ => "set" ++ cond.text
  | jump cond _ => "j" ++ cond.text
  | jmp _ => "jmp"
  | call _ => "call"
  | ret => "ret"
  | syscall => "syscall"

/-- What stands behind the name of an instruction. -/
def Instr.arguments (i : Instr) : List String := i.operands.map Operand.text ++ i.target?.toList

/-- All labels that an instruction names are read back. -/
structure Instr.Legible (i : Instr) : Prop where
  operands : ∀ o ∈ i.operands, o.Legible
  target : ∀ l ∈ i.target?, Asm.Legible l

/-- What stands behind the name of an instruction, with a blank in front. -/
def argumentChars : List String → List Char
  | [] => []
  | a :: as => ' ' :: (a.toList ++ as.flatMap fun b => ',' :: ' ' :: b.toList)

theorem Instr.toList_text (i : Instr) :
    i.text.toList = i.mnemonic.toList ++ argumentChars i.arguments := by
  cases i <;>
    simp only [Instr.text, Instr.mnemonic, Instr.arguments, Instr.operands, Instr.target?,
      String.toList_append, argumentChars, List.map_cons, List.map_nil, Option.toList_none,
      Option.toList_some, List.append_nil, List.nil_append, List.flatMap_cons, List.flatMap_nil,
      List.append_assoc] <;>
    rfl

/-- Is a text one word? -/
def IsWord (text : String) : Prop := text.toList.all isNameChar = true ∧ text.toList ≠ []

instance (text : String) : Decidable (IsWord text) := inferInstanceAs (Decidable (_ ∧ _))

theorem Arith.isWord_text (op : Arith) : IsWord op.text := by cases op <;> decide +kernel

theorem Unary.isWord_text (op : Unary) : IsWord op.text := by cases op <;> decide +kernel

theorem Cond.isWord_set (cond : Cond) : IsWord ("set" ++ cond.text) := by
  cases cond <;> decide +kernel

theorem Cond.isWord_jump (cond : Cond) : IsWord ("j" ++ cond.text) := by
  cases cond <;> decide +kernel

theorem Instr.isWord_mnemonic : (i : Instr) → IsWord i.mnemonic
  | push _ => (by decide +kernel : IsWord "push")
  | pop _ => (by decide +kernel : IsWord "pop")
  | mov _ _ => (by decide +kernel : IsWord "mov")
  | movzx _ _ => (by decide +kernel : IsWord "movzx")
  | lea _ _ => (by decide +kernel : IsWord "lea")
  | arith op _ _ => op.isWord_text
  | unary op _ => op.isWord_text
  | cmp _ _ => (by decide +kernel : IsWord "cmp")
  | test _ _ => (by decide +kernel : IsWord "test")
  | cqo => (by decide +kernel : IsWord "cqo")
  | set cond _ => cond.isWord_set
  | jump cond _ => cond.isWord_jump
  | jmp _ => (by decide +kernel : IsWord "jmp")
  | call _ => (by decide +kernel : IsWord "call")
  | ret => (by decide +kernel : IsWord "ret")
  | syscall => (by decide +kernel : IsWord "syscall")

theorem runsIn_append_argumentChars (a : List Char) (as : List String) :
    runsIn (a ++ argumentChars as) = runsIn a ++ runsIn (argumentChars as) := by
  cases as with
  | nil => simp [argumentChars, runsIn]
  | cons b as => rw [argumentChars, runsIn_append_cons rfl, runsIn_cons rfl]

theorem symbolsIn_argumentChars (as : List String) :
    symbolsIn (argumentChars as) = as.flatMap (symbolsIn ·.toList) := by
  have others (a : List Char) (bs : List String) :
      symbolsIn (a ++ bs.flatMap fun b => ',' :: ' ' :: b.toList)
        = symbolsIn a ++ bs.flatMap (symbolsIn ·.toList) := by
    induction bs generalizing a with
    | nil => simp
    | cons b bs ih =>
      simp only [List.flatMap_cons, List.cons_append]
      rw [symbolsIn_append_cons rfl, symbolsIn_cons rfl, ih]
  cases as with
  | nil => rfl
  | cons b as => rw [argumentChars, symbolsIn_cons rfl, others, List.flatMap_cons]

/-- What stands in front of an instruction. -/
def indent : List Char := [' ', ' ', ' ', ' ']

/-- **The labels that an instruction names are read back.** -/
theorem Instr.namedBy_text {i : Instr} (legible : i.Legible) :
    namedBy (indent ++ i.text.toList) = i.symbols := by
  have indented : (indent ++ i.text.toList).head? = some ' ' := rfl
  obtain ⟨name, any⟩ := i.isWord_mnemonic
  have runs : runsIn (indent ++ i.text.toList)
      = i.mnemonic.toList :: runsIn (argumentChars i.arguments) := by
    rw [i.toList_text]
    calc
      _ = runsIn (i.mnemonic.toList ++ argumentChars i.arguments) :=
        (runsIn_cons rfl).trans ((runsIn_cons rfl).trans ((runsIn_cons rfl).trans (runsIn_cons rfl)))
      _ = _ := by
        rw [runsIn_append_argumentChars, runsIn_eq_singleton any name]
        rfl
  have operands : (i.operands.map Operand.text).flatMap (symbolsIn ·.toList)
      = i.operands.flatMap Operand.symbols := by
    rw [List.flatMap_map]
    exact List.flatMap_congr fun o mem => Operand.symbolsIn_text (legible.operands o mem)
  have target : i.target?.toList.flatMap (symbolsIn ·.toList) = i.target?.toList := by
    cases named : i.target? with
    | none => rfl
    | some l => simpa using (legible.target l named).symbolsIn
  rw [namedBy, if_pos indented, runs, List.tail_cons]
  change symbolsIn (argumentChars i.arguments) = _
  rw [symbolsIn_argumentChars, Instr.arguments, List.flatMap_append, operands, target,
    Instr.symbols]

/-! ## Characters -/

/-- May an instruction hold a character? -/
def isCodeChar (c : Char) : Bool := isNameChar c || [' ', ',', '[', ']', '+', '-', '\''].contains c

theorem all_isCodeChar {chars : List Char} (name : chars.all isNameChar = true) :
    chars.all isCodeChar = true :=
  List.all_eq_true.2 fun c mem => by simp [isCodeChar, List.all_eq_true.1 name c mem]

theorem Mem.all_isCodeChar_text {m : Mem} (legible : ∀ l ∈ m.symbols, Asm.Legible l) :
    m.text.toList.all isCodeChar = true := by
  cases m with
  | «at» base => cases base <;> decide +kernel
  | offset base bytes =>
    have spelled : (Mem.offset base bytes).text.toList
        = ['['] ++ base.text.toList ++ [' ', '+', ' '] ++ bytes.repr.toList ++ [']'] := by
      simp [Mem.text]
      rfl
    have name : base.text.toList.all isCodeChar = true := by cases base <;> decide +kernel
    have number := all_isCodeChar (all_isNameChar_repr bytes)
    rw [spelled, List.all_append, List.all_append, List.all_append, List.all_append, name, number]
    rfl
  | symbol name =>
    have spelled : (Mem.symbol name).text.toList = ['['] ++ name.toList ++ [']'] := by
      simp [Mem.text]
      rfl
    have inner := all_isCodeChar (legible name (List.mem_singleton_self _)).chars
    rw [spelled, List.all_append, List.all_append, inner]
    rfl

theorem Operand.all_isCodeChar_text {o : Operand} (legible : o.Legible) :
    o.text.toList.all isCodeChar = true := by
  cases o with
  | reg r => cases r <;> decide +kernel
  | low r => cases r <;> decide +kernel
  | mem m => exact m.all_isCodeChar_text legible.1
  | qword m =>
    rw [Operand.text, String.toList_append, List.all_append, m.all_isCodeChar_text legible.1]
    decide +kernel
  | byte m =>
    rw [Operand.text, String.toList_append, List.all_append, m.all_isCodeChar_text legible.1]
    decide +kernel
  | imm n =>
    rw [Operand.text, Int.toString_eq_repr, Int.repr_eq_if]
    split
    · exact all_isCodeChar (all_isNameChar_repr _)
    · rw [String.toList_append, List.all_append, all_isCodeChar (all_isNameChar_repr _)]
      decide +kernel
  | char c => rcases legible.2 c rfl with rfl | rfl <;> decide +kernel
  | address label => exact all_isCodeChar (legible.1 label (List.mem_singleton_self _)).chars

theorem all_isCodeChar_argumentChars {as : List String}
    (each : ∀ a ∈ as, a.toList.all isCodeChar = true) :
    (argumentChars as).all isCodeChar = true := by
  cases as with
  | nil => rfl
  | cons a as =>
    have first := each a (List.mem_cons_self ..)
    have others : (as.flatMap fun b => ',' :: ' ' :: b.toList).all isCodeChar = true := by
      rw [List.all_flatMap, List.all_eq_true]
      intro b mem
      rw [List.all_cons, List.all_cons, each b (List.mem_cons_of_mem _ mem)]
      rfl
    rw [argumentChars, List.all_cons, List.all_append, first, others]
    rfl

/-- An instruction holds no character that starts a remark or ends a line. -/
theorem Instr.all_isCodeChar_text {i : Instr} (legible : i.Legible) :
    i.text.toList.all isCodeChar = true := by
  have name := all_isCodeChar i.isWord_mnemonic.1
  rw [i.toList_text, List.all_append, name, Bool.true_and]
  refine all_isCodeChar_argumentChars fun a mem => ?_
  rcases List.mem_append.1 mem with mem | mem
  · obtain ⟨o, here, rfl⟩ := List.mem_map.1 mem
    exact Operand.all_isCodeChar_text (legible.operands o here)
  · exact all_isCodeChar (legible.target a (Option.mem_toList.1 mem)).chars

/-! ## Lines -/

/-- A row as it stands in the text, without its line feed. -/
def Row.chars : Row → List Char
  | instr text => indent ++ text.toList
  | label name => name.toList ++ [':']
  | comment text => indent ++ ';' :: ' ' :: text.toList
  | blank => []
  | raw text => text.toList

theorem Row.toList_text {r : Row} (whole : '\n' ∉ r.chars) : r.text.toList = r.chars ++ ['\n'] := by
  cases r with
  | instr text =>
    simp [Row.text, Row.chars]
    rfl
  | label name =>
    simp [Row.text, Row.chars]
    rfl
  | comment text =>
    simp [Row.text, Row.chars]
    rfl
  | blank => rfl
  | raw text =>
    have last : text.toList.getLast? ≠ some '\n' := fun last => whole (List.mem_of_getLast? last)
    simp [Row.text, Row.chars, last]

/-- A line as it stands in the text, without its line feed. -/
def Line.chars (line : Line) : List Char := line.row.chars

/-- A line whose labels are read back and whose remarks hold no line feed. -/
def Line.Legible : Line → Prop
  | instr i => i.Legible
  | label name => Asm.Legible name
  | comment text => Unbroken text
  | remark text => Unbroken text
  | blank => True
  | bits64 => True
  | sectionStart name => name.toList.all isNameChar = true
  | globalLabel name => name.toList.all isNameChar = true
  | bytes name _ => Asm.Legible name
  | reserve name _ _ note => Asm.Legible name ∧ ∀ text ∈ note, Unbroken text

/-- What is read of a line is what it says. -/
structure Line.Reads (line : Line) : Prop where
  whole : '\n' ∉ line.chars
  label : labelIn? (withoutComment line.chars) = line.defines?
  symbols : namedBy (withoutComment line.chars) = line.symbols

theorem withoutComment_eq_self {chars : List Char} (code : ∀ c ∈ chars, c ≠ ';') :
    withoutComment chars = chars := by
  have all : ∀ c ∈ chars, (c != ';') = true := fun c mem => bne_iff_ne.2 (code c mem)
  exact List.takeWhile_eq_self_iff.2 all

theorem isNameChar_ne {c d : Char} (name : isNameChar c = true) (other : isNameChar d = false) :
    c ≠ d := fun same => by simp [same, other] at name

theorem labelIn?_of_label {name : String} (legible : Legible name) (rest : List Char) :
    labelIn? (withoutComment (name.toList ++ ':' :: rest)) = some name
      ∧ namedBy (withoutComment (name.toList ++ ':' :: rest)) = [] := by
  have chars := List.all_eq_true.1 legible.chars
  have cut : withoutComment (name.toList ++ ':' :: rest)
      = name.toList ++ ':' :: withoutComment rest := by
    have code : ∀ c ∈ name.toList, (c != ';') = true :=
      fun c mem => bne_iff_ne.2 (isNameChar_ne (chars c mem) rfl)
    rw [withoutComment, List.takeWhile_append_of_pos code]
    rfl
  have first : (name.toList ++ ':' :: withoutComment rest).head? ≠ some ' ' := by
    cases spelled : name.toList with
    | nil => simp
    | cons c cs =>
      have := isNameChar_ne (d := ' ') (chars c (spelled ▸ List.mem_cons_self ..)) rfl
      simpa using this
  have front : (name.toList ++ ':' :: withoutComment rest).takeWhile (· != ':') = name.toList := by
    have apart : ∀ c ∈ name.toList, (c != ':') = true :=
      fun c mem => bne_iff_ne.2 (isNameChar_ne (chars c mem) rfl)
    rw [List.takeWhile_append_of_pos apart]
    simp
  rw [cut]
  refine ⟨?_, if_neg first⟩
  rw [labelIn?, if_pos ⟨first, by simp⟩, front, String.ofList_toList]

theorem Instr.Legible.reads {i : Instr} (legible : i.Legible) : (Line.instr i).Reads := by
  have code := List.all_eq_true.1 (Instr.all_isCodeChar_text legible)
  have apart : ∀ d, isCodeChar d = false → d ≠ ' ' → d ∉ (Line.instr i).chars := by
    intro d other blank mem
    rcases List.mem_append.1 mem with mem | mem
    · exact blank (by simpa [indent] using mem)
    · rw [code d mem] at other
      cases other
  have same : withoutComment (Line.instr i).chars = indent ++ i.text.toList :=
    withoutComment_eq_self fun c mem eq => apart ';' (by decide) (by decide) (eq ▸ mem)
  refine ⟨apart '\n' (by decide) (by decide), ?_, ?_⟩
  · rw [same]
    rfl
  · rw [same]
    exact Instr.namedBy_text legible

/-- What is read of a line that starts with a word of no meaning here. -/
theorem reads_of_directive {line : Line} (first : line.chars.head?.any isNameChar = true)
    (code : line.chars.all isCodeChar = true) (none : line.defines? = none)
    (quiet : line.symbols = []) : line.Reads := by
  have apart : ∀ d, isCodeChar d = false → d ∉ line.chars := by
    intro d other mem
    rw [List.all_eq_true.1 code d mem] at other
    cases other
  have same : withoutComment line.chars = line.chars :=
    withoutComment_eq_self fun c mem eq => apart ';' (by decide) (eq ▸ mem)
  refine ⟨apart '\n' (by decide), ?_, ?_⟩
  · rw [same, none, labelIn?, if_neg fun h => apart ':' (by decide) h.2]
  · rw [same, quiet, namedBy, if_neg]
    intro blank
    rw [blank] at first
    cases first

theorem not_mem_intercalate {c : Char} {sep : String} {parts : List String}
    (between : c ∉ sep.toList) (each : ∀ part ∈ parts, c ∉ part.toList) :
    c ∉ (sep.intercalate parts).toList := by
  induction parts with
  | nil => simp
  | cons part parts ih =>
    have first := each part (List.mem_cons_self ..)
    have others := ih fun other mem => each other (List.mem_cons_of_mem _ mem)
    by_cases last : parts = []
    · simpa [last] using first
    · rw [String.intercalate_cons_of_ne_nil last, String.toList_append, String.toList_append]
      simp only [List.mem_append, not_or]
      exact ⟨⟨first, between⟩, others⟩

/-- Stored bytes are written with digits, commas and blanks. -/
theorem not_mem_bytesText {c : Char} (other : isNameChar c = false) (between : c ∉ ", ".toList)
    (values : List UInt8) : c ∉ (Line.bytesText values).toList := by
  unfold Line.bytesText
  split
  · exact not_mem_repr other 0
  · refine not_mem_intercalate between fun part mem => ?_
    obtain ⟨b, -, rfl⟩ := List.mem_map.1 mem
    exact not_mem_repr other _

theorem Legible.not_mem {name : String} (legible : Legible name) {c : Char}
    (other : isNameChar c = false) : c ∉ name.toList :=
  fun mem => isNameChar_ne (List.all_eq_true.1 legible.chars c mem) other rfl

/-- **A legible line is read back.** -/
theorem Line.Legible.reads {line : Line} (legible : line.Legible) : line.Reads := by
  cases line with
  | instr i => exact Instr.Legible.reads legible
  | label name =>
    obtain ⟨defined, named⟩ := labelIn?_of_label legible []
    refine ⟨fun mem => ?_, defined, named⟩
    rcases List.mem_append.1 mem with mem | mem
    · exact Legible.not_mem legible rfl mem
    · simp at mem
  | comment text =>
    refine ⟨fun mem => ?_, rfl, rfl⟩
    have mem : '\n' ∈ text.toList := by simpa [Line.chars, Line.row, Row.chars, indent] using mem
    exact legible mem
  | remark text =>
    have spelled : (Line.remark text).chars = "; ".toList ++ text.toList := String.toList_append
    refine ⟨fun mem => ?_, ?_, ?_⟩
    · rw [spelled] at mem
      rcases List.mem_append.1 mem with mem | mem
      · simp at mem
      · exact legible mem
    · rw [spelled]
      rfl
    · rw [spelled]
      rfl
  | blank => exact ⟨List.not_mem_nil, rfl, rfl⟩
  | bits64 => exact reads_of_directive (by decide) (by decide +kernel) rfl rfl
  | sectionStart name =>
    have spelled : (Line.sectionStart name).chars = "section ".toList ++ name.toList :=
      String.toList_append
    refine reads_of_directive ?_ ?_ rfl rfl
    · rw [spelled]
      rfl
    · rw [spelled, List.all_append, all_isCodeChar legible]
      rfl
  | globalLabel name =>
    have spelled : (Line.globalLabel name).chars = "global ".toList ++ name.toList :=
      String.toList_append
    refine reads_of_directive ?_ ?_ rfl rfl
    · rw [spelled]
      rfl
    · rw [spelled, List.all_append, all_isCodeChar legible]
      rfl
  | bytes name values =>
    have spelled : (Line.bytes name values).chars
        = name.toList ++ ':' :: (" db ".toList ++ (bytesText values).toList) := by
      simp [Line.chars, Line.row, Row.chars]
      rfl
    obtain ⟨defined, named⟩ :=
      labelIn?_of_label legible (" db ".toList ++ (bytesText values).toList)
    refine ⟨?_, spelled ▸ defined, spelled ▸ named⟩
    rw [spelled]
    simp [Legible.not_mem legible (c := '\n') rfl, not_mem_bytesText (c := '\n') rfl (by decide)]
  | reserve name space count note =>
    obtain ⟨legible, unbroken⟩ := legible
    -- The remark stands behind what is there without it.
    have spelled : ∃ rest, (Line.reserve name space count note).chars = name.toList ++ ':' :: rest
        ∧ '\n' ∉ rest := by
      have unit : '\n' ∉ space.text.toList := by cases space <;> decide +kernel
      have number : '\n' ∉ Nat.toDigits 10 count := Nat.toList_repr ▸ not_mem_repr rfl count
      cases note with
      | none =>
        refine ⟨' ' :: (space.text.toList ++ ' ' :: count.repr.toList), ?_, by simp [unit, number]⟩
        simp [Line.chars, Line.row, Row.chars]
        rfl
      | some text =>
        have remark : '\n' ∉ text.toList := unbroken text rfl
        refine ⟨' ' :: (space.text.toList ++ ' ' :: (count.repr.toList ++ " ; ".toList ++ text.toList)),
          ?_, by simp [unit, number, remark]⟩
        simp [Line.chars, Line.row, Row.chars]
        rfl
    obtain ⟨rest, spelled, whole⟩ := spelled
    obtain ⟨defined, named⟩ := labelIn?_of_label legible rest
    refine ⟨?_, spelled ▸ defined, spelled ▸ named⟩
    rw [spelled]
    simp [Legible.not_mem legible (c := '\n') rfl, whole]

/-! ## Texts -/

/-- The lines of a text are the lines that it is made of, and an empty one behind the last line
feed. -/
theorem splitOnP_textOf {lines : List Line} (whole : ∀ line ∈ lines, '\n' ∉ line.chars) :
    (textOf lines).toList.splitOnP (· == '\n') = lines.map Line.chars ++ [[]] := by
  have spelled : (textOf lines).toList = (lines.map Line.chars).flatMap (· ++ ['\n']) := by
    rw [textOf, listing, String.toList_join, List.flatMap_map, List.flatMap_map, List.flatMap_map]
    exact List.flatMap_congr fun line mem => Row.toList_text (whole line mem)
  rw [spelled]
  exact splitOnP_terminated (List.forall_mem_map.2 whole)

theorem codeLines_textOf {lines : List Line} (legible : ∀ line ∈ lines, line.Legible) :
    codeLines (textOf lines) = lines.map (withoutComment ·.chars) ++ [[]] := by
  rw [codeLines, splitOnP_textOf fun line mem => (legible line mem).reads.whole, List.map_append,
    List.map_map]
  rfl

/-- **The labels that a text defines are those that its lines define.** -/
theorem labelsIn_textOf {lines : List Line} (legible : ∀ line ∈ lines, line.Legible) :
    labelsIn (textOf lines) = lines.filterMap Line.defines? := by
  have each : lines.filterMap (labelIn? ∘ fun line => withoutComment line.chars)
      = lines.filterMap Line.defines? :=
    List.filterMap_congr fun line mem => (legible line mem).reads.label
  rw [labelsIn, codeLines_textOf legible, List.filterMap_append, List.filterMap_map, each]
  exact List.append_nil _

/-- **The labels that a text names are those that its instructions name.** -/
theorem namedIn_textOf {lines : List Line} (legible : ∀ line ∈ lines, line.Legible) :
    namedIn (textOf lines) = lines.flatMap Line.symbols := by
  have each : lines.flatMap (fun line => namedBy (withoutComment line.chars))
      = lines.flatMap Line.symbols :=
    List.flatMap_congr fun line mem => (legible line mem).reads.symbols
  rw [namedIn, codeLines_textOf legible, List.flatMap_append, List.flatMap_map, each]
  exact List.append_nil _

end PinnedStack.Asm
