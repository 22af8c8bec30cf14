import PinnedStack.Proofs.Machine.Heights
import PinnedStack.Proofs.Text.Bodies
import PinnedStack.Proofs.Text.Legible

/-!
# The emitted text is closed under labels

* `legible_of_mem_everyLabel` — every label of a program is read back.
* `Line.Tidy`, `Program.tidy_of_mem_lines` — what a line holds besides code and labels does not end
  it.
* `Program.legible` — every line of a program is read back.
* `labels_closed` — the emitted text defines no label twice and every label that it names. A branch
  or loop jumps to its own labels, and a routine to its own.
-/

namespace PinnedStack

open Asm

/-! ## Labels -/

instance (name : String) : Decidable (Legible name) :=
  decidable_of_iff (name.toList.all isNameChar = true ∧ isSymbol name.toList = true)
    ⟨fun h => ⟨h.1, h.2⟩, fun h => ⟨h.chars, h.symbol⟩⟩

/-- A name with a number in it is read back. -/
theorem legible_of_numbered {label : String} {front rest : List Char} {n : Nat}
    (spelled : label.toList = front ++ ((toString n).toList ++ rest))
    (name : (front ++ rest).all isNameChar = true) (mark : '_' ∈ front)
    (start : front.head?.any (!·.isDigit) = true) : Legible label := by
  rw [List.all_append, Bool.and_eq_true] at name
  refine Legible.of_mem ?_ ?_ (spelled ▸ List.mem_append_left _ mark)
  · rw [spelled, List.all_append, List.all_append, name.1, name.2, Nat.toString_eq_repr,
      all_isNameChar_repr]
    rfl
  · rw [spelled, List.head?_append_of_ne_nil _ (List.ne_nil_of_mem mark)]
    exact start

theorem legible_of_mem_jumpLabels {n : Nat} {label : String} (mem : label ∈ jumpLabels n) :
    Legible label := by
  simp only [jumpLabels, List.mem_cons, List.not_mem_nil, or_false] at mem
  rcases mem with rfl | rfl | rfl | rfl
  · exact legible_of_numbered (toList_elseLabel n) (by decide) (by decide) rfl
  · exact legible_of_numbered (toList_endifLabel n) (by decide) (by decide) rfl
  · exact legible_of_numbered (toList_loopLabel n) (by decide) (by decide) rfl
  · exact legible_of_numbered (toList_endloopLabel n) (by decide) (by decide) rfl

/-- A name with a number at its end is read back. -/
theorem legible_of_mem_map {label : Nat → String} {front : List Char} {ns : List Nat}
    (spelled : ∀ n, (label n).toList = front ++ (toString n).toList)
    (name : front.all isNameChar = true) (mark : '_' ∈ front)
    (start : front.head?.any (!·.isDigit) = true) : ∀ l ∈ ns.map label, Legible l := by
  intro l mem
  obtain ⟨n, -, rfl⟩ := List.mem_map.1 mem
  have whole : (label n).toList = front ++ ((toString n).toList ++ []) := by
    rw [spelled, List.append_nil]
  exact legible_of_numbered whole (by simpa using name) mark start

/-- **Every label of a program is read back.** -/
theorem Program.legible_of_mem_everyLabel {p : Program} {tables : Tables} :
    ∀ l ∈ p.everyLabel tables, Legible l := by
  have fixed : ∀ l ∈ fixedLabels, Legible l := by decide +kernel
  have space : ∀ l ∈ spaceLabels, Legible l := by decide +kernel
  simp only [everyLabel, allLabels, Tables.labels, List.forall_mem_append]
  refine ⟨⟨fixed, ?_, fun l mem => ?_⟩, space, ?_, ?_⟩
  · exact legible_of_mem_map toList_functionLabel (by decide) (by decide) rfl
  · obtain ⟨n, -, mem⟩ := List.mem_flatMap.1 mem
    exact legible_of_mem_jumpLabels mem
  · exact legible_of_mem_map toList_literalLabel (by decide) (by decide) rfl
  · exact legible_of_mem_map toList_regionLabel (by decide) (by decide) rfl

/-! ## Lines -/

/-- What a line holds besides code and labels does not end it. -/
def Asm.Line.Tidy : Line → Prop
  | comment text => Unbroken text
  | remark text => Unbroken text
  | sectionStart name => name.toList.all isNameChar = true
  | globalLabel name => name.toList.all isNameChar = true
  | reserve _ _ _ note => ∀ text ∈ note, Unbroken text
  | instr _ | label _ | blank | bits64 | bytes _ _ => True

instance : (line : Line) → Decidable line.Tidy
  | .comment text => inferInstanceAs (Decidable (Unbroken text))
  | .remark text => inferInstanceAs (Decidable (Unbroken text))
  | .sectionStart name => inferInstanceAs (Decidable (name.toList.all isNameChar = true))
  | .globalLabel name => inferInstanceAs (Decidable (name.toList.all isNameChar = true))
  | .reserve _ _ _ note => inferInstanceAs (Decidable (∀ text ∈ note, Unbroken text))
  | .instr _ | .label _ | .blank | .bits64 | .bytes _ _ => .isTrue trivial

theorem Asm.Line.Tidy.legible {line : Line} (tidy : line.Tidy)
    (label : ∀ l ∈ line.defines?, Asm.Legible l) (symbols : ∀ l ∈ line.symbols, Asm.Legible l)
    (chars : ∀ o ∈ line.operands, ∀ c, o = .char c → c = '0' ∨ c = '-') : line.Legible := by
  cases line with
  | instr i =>
    refine ⟨fun o operand => ⟨fun l held => ?_, chars o operand⟩, fun l target => ?_⟩
    · exact symbols l (Line.mem_symbols.2 (.inl ⟨o, operand, held⟩))
    · exact symbols l (Line.mem_symbols.2 (.inr target))
  | label name => exact label name rfl
  | bytes name _ => exact label name rfl
  | reserve name _ _ _ => exact ⟨label name rfl, tidy⟩
  | comment | remark | sectionStart | globalLabel => exact tidy
  | blank | bits64 => trivial

section Programs

variable {p : Program} {tables : Tables} {limits : Limits} {line : Line}

theorem tidy_instrs (is : List Instr) : ∀ line ∈ instrs is, line.Tidy := by
  intro line mem
  obtain ⟨i, -, rfl⟩ := List.mem_map.1 mem
  trivial

theorem Node.tidy_ownLines {n : Node} (remark : ∀ text ∈ n.remark?, Unbroken text) :
    ∀ line ∈ n.ownLines, line.Tidy := by
  cases n with
  | op => exact tidy_instrs _
  | call => exact List.forall_mem_cons.2 ⟨remark _ rfl, tidy_instrs _⟩
  | ifTrue | ifFalse | ifElse =>
    refine List.forall_mem_append.2 ⟨List.forall_mem_cons.2 ⟨remark _ rfl, tidy_instrs _⟩, ?_⟩
    simp [Line.Tidy]
  | loop =>
    simp only [ownLines, List.forall_mem_append, List.forall_mem_cons]
    exact ⟨⟨⟨⟨⟨remark _ rfl, tidy_instrs _⟩, trivial, tidy_instrs _⟩, tidy_instrs _⟩, trivial,
      tidy_instrs _⟩, trivial, trivial, tidy_instrs _⟩

theorem Tables.tidy_literalLines : ∀ line ∈ tables.literalLines, line.Tidy := by
  refine List.forall_mem_append.2 ⟨by decide +kernel, fun line mem => ?_⟩
  obtain ⟨e, -, rfl⟩ := List.mem_map.1 mem
  trivial

theorem Tables.tidy_spaceLines (named : ∀ r ∈ tables.regions, Unbroken r.name) :
    ∀ line ∈ tables.spaceLines limits, line.Tidy := by
  refine List.forall_mem_append.2 ⟨fun line mem => ?_, fun line mem => ?_⟩
  · have start : (Line.sectionStart ".bss").Tidy := by decide +kernel
    simp only [List.mem_cons, List.not_mem_nil, or_false] at mem
    rcases mem with rfl | rfl | rfl | rfl | rfl | rfl
    · trivial
    · exact start
    · exact fun _ mem => by cases mem
    · exact fun _ mem => by cases mem
    · exact fun _ mem => by cases mem
    · trivial
  · obtain ⟨e, held, rfl⟩ := List.mem_map.1 mem
    obtain ⟨⟨region, i⟩, listed, rfl⟩ := List.mem_map.1 held
    rintro text ⟨⟩
    exact named region (List.fst_mem_of_mem_zipIdx listed)

/-- **What the lines of a program hold besides code and labels does not end them.** -/
theorem Program.Tidy.tidy_of_mem_lines (tidy : p.Tidy tables) (mem : line ∈ p.lines tables limits) :
    line.Tidy := by
  cases mem_lines.1 mem with
  | heading mem =>
    have all : ∀ line ∈ PinnedStack.heading, line.Tidy := by decide +kernel
    exact all line mem
  | routine mem =>
    have all : ∀ line ∈ Routine.all.flatMap Routine.block, line.Tidy := by decide +kernel
    exact all line mem
  | entry mem =>
    have all : ∀ line ∈ entryOpening ++ entryEnding, line.Tidy := by decide +kernel
    exact all line mem
  | @function f known mem =>
    simp only [Func.opening, List.mem_append] at mem
    rcases mem with (mem | mem) | mem
    · simp only [List.mem_cons, List.not_mem_nil, or_false] at mem
      rcases mem with rfl | rfl | rfl
      · trivial
      · exact tidy.functions f known
      · trivial
    · exact tidy_instrs _ line mem
    · exact tidy_instrs _ line mem
  | @node f n body inside own =>
    exact n.tidy_ownLines (tidy.bodies f body n inside).remark line own
  | literal mem => exact Tables.tidy_literalLines line mem
  | space mem => exact Tables.tidy_spaceLines tidy.regions line mem

theorem Program.Tidy.stored (tidy : p.Tidy tables) :
    ∀ f ∈ p.bodies, ∀ n ∈ nodesIn f.body, ∀ l ∈ n.label?, l ∈ tables.labels :=
  fun f body n inside => (tidy.bodies f body n inside).label

/-- **Every line of a program is read back.** -/
theorem Program.Tidy.legible {capacity : Nat} (tidy : p.Tidy tables) (formed : p.Formed capacity) :
    ∀ line ∈ p.lines tables limits, line.Legible := by
  have named : ∀ l ∈ definesOf (p.lines tables limits), Asm.Legible l := fun l mem =>
    legible_of_mem_everyLabel l (definesOf_subset_everyLabel formed.labels mem)
  intro line mem
  refine (tidy.tidy_of_mem_lines mem).legible
    (fun l defines => named l (mem_definesOf.2 ⟨line, mem, defines⟩))
    (fun l symbol => named l (defined formed tidy.stored mem symbol)) ?_
  rintro o operand c rfl
  have plain : (Operand.char c).isPlain = true := by
    cases mentions_of_mem_lines mem operand with
    | plain plain => exact plain
    | pointer eq => cases eq
    | start mem => simp at mem
    | node _ _ uses =>
      rcases uses with plain | ⟨pin, -, slot, -, eq⟩ | ⟨l, -, eq⟩
      · exact plain
      · cases eq
      · cases eq
    | saved _ _ eq => cases eq
  simpa [Operand.isPlain] using plain

end Programs

/-! ## Texts -/

/-- **The emitted text is closed under labels.** No two lines define one label, and every label that
an instruction names is defined: what is read of the text is what the lines of the program say. The
lines of a branch or loop stand among them; its own jumps, which are those that are not in the bodies
inside it, go to its own labels. A routine stands there behind its name, and the local labels that it
names are defined once in it. -/
theorem labels_closed {limits : Limits} {source file asm : String} (whole : Unbroken file)
    (ok : compile limits source file = .ok asm) :
    (labelsIn asm).Nodup ∧ (∀ l ∈ namedIn asm, l ∈ labelsIn asm)
      ∧ ∃ p tables, check limits source file = .ok (p, tables)
        ∧ asm = textOf (p.lines tables limits)
        ∧ labelsIn asm = definesOf (p.lines tables limits)
        ∧ namedIn asm = (p.lines tables limits).flatMap Line.symbols
        ∧ (∀ f ∈ p.bodies, ∀ n ∈ nodesIn f.body, n.isBlock = true →
          n.lines <:+: p.lines tables limits ∧ n.lines.Perm (n.ownLines ++ linesOf n.parts)
            ∧ ∀ l ∈ namedIn (textOf n.ownLines), l ∈ labelsIn (textOf n.ownLines))
        ∧ ∀ r ∈ Routine.all, r.block <:+: p.lines tables limits
          ∧ (labelsIn (textOf r.block)).filter (!isLocal ·) = [r.name]
          ∧ ∀ l ∈ namedIn (textOf r.block), isLocal l = true →
            (labelsIn (textOf r.block)).count l = 1 := by
  obtain ⟨⟨p, tables⟩, checked, eq⟩ := Except.bind_eq_ok.1 ok
  cases eq
  obtain ⟨spelled, -⟩ := check_eq_ok.1 checked
  have tidy := Program.tidy_of_ofText whole spelled
  obtain ⟨text, -, spelled⟩ := Program.ofText_eq_ok spelled
  have formed := Program.formed_of_ofTokens spelled
  have legible : ∀ line ∈ p.lines tables limits, line.Legible := tidy.legible formed
  have labels : labelsIn (p.asm tables limits) = definesOf (p.lines tables limits) :=
    labelsIn_textOf legible
  have named : namedIn (p.asm tables limits) = (p.lines tables limits).flatMap Line.symbols :=
    namedIn_textOf legible
  refine ⟨labels ▸ Program.nodup_definesOf spelled, fun l mem => ?_, p, tables, checked, rfl,
    labels, named, ?_, ?_⟩
  · obtain ⟨line, mem, symbol⟩ := List.mem_flatMap.1 (named ▸ mem)
    exact labels ▸ Program.defined formed tidy.stored mem symbol
  · intro f body n inside block
    refine ⟨(infix_of_mem_nodesIn f.body inside).trans (Program.infix_lines body), n.lines_perm, ?_⟩
    have own : ∀ line ∈ n.ownLines, line.Legible :=
      fun line mem => legible line (Program.mem_lines.2 (.node body inside mem))
    rw [namedIn_textOf own, labelsIn_textOf own]
    exact n.symbols_subset block
  · intro r known
    have part : r.block <:+: p.lines tables limits := Program.infix_block known
    have own : ∀ line ∈ r.block, line.Legible := fun line mem => legible line (part.mem mem)
    rw [namedIn_textOf own, labelsIn_textOf own]
    have once : ∀ r ∈ Routine.all, (definesOf r.block).filter (!isLocal ·) = [r.name]
        ∧ ∀ l ∈ r.block.flatMap Line.symbols, isLocal l = true →
          (definesOf r.block).count l = 1 := by decide +kernel
    exact ⟨part, once r known⟩

/-- A memory, a literal, a call, a branch with two arms and a loop. -/
def dataAndJumps : String :=
  "memory m 8 ; : f ( -- ) 1 if m drop else c\"a\" drop ; ; 2 loop i do f i 1 - ; print"

/-- Its labels, and those of them that instructions name. -/
theorem labels_closed_dataAndJumps :
    ∃ asm, compile ⟨5, 64⟩ dataAndJumps "t" = .ok asm
      ∧ labelsIn asm = ["print_decimal", ".digits", ".next", ".write", "str_equal", ".compare",
        ".equal", ".done", "_start", "loop_1_start", "loop_1_end", "fn_0", "if_0_else", "if_0_end",
        "str_0", "pins", "ret_stack_rsp", "ret_stack", "ret_stack_end", "mem_0"]
      ∧ (namedIn asm).dedup = [".digits", ".next", ".write", ".equal", ".done", ".compare", "pins",
        "ret_stack_end", "loop_1_end", "fn_0", "loop_1_start", "print_decimal", "if_0_else", "mem_0",
        "if_0_end", "str_0", "ret_stack_rsp"]
      ∧ (labelsIn asm).Nodup ∧ ∀ l ∈ namedIn asm, l ∈ labelsIn asm := by
  obtain ⟨p, tables, checked, holds⟩ := Except.exists_eq_ok (x := check ⟨5, 64⟩ dataAndJumps "t")
    (q := fun r => definesOf (r.1.lines r.2 ⟨5, 64⟩) == ["print_decimal", ".digits", ".next",
        ".write", "str_equal", ".compare", ".equal", ".done", "_start", "loop_1_start", "loop_1_end",
        "fn_0", "if_0_else", "if_0_end", "str_0", "pins", "ret_stack_rsp", "ret_stack",
        "ret_stack_end", "mem_0"]
      && ((r.1.lines r.2 ⟨5, 64⟩).flatMap Line.symbols).dedup == [".digits", ".next", ".write",
        ".equal", ".done", ".compare", "pins", "ret_stack_end", "loop_1_end", "fn_0", "loop_1_start",
        "print_decimal", "if_0_else", "mem_0", "if_0_end", "str_0", "ret_stack_rsp"])
    (by decide +kernel)
  rw [Bool.and_eq_true, beq_iff_eq, beq_iff_eq] at holds
  have ok : compile ⟨5, 64⟩ dataAndJumps "t" = .ok (p.asm tables ⟨5, 64⟩) :=
    Except.bind_eq_ok.2 ⟨_, checked, rfl⟩
  obtain ⟨once, closed, _, _, again, -, labels, named, -⟩ := labels_closed (by decide) ok
  cases checked.symm.trans again
  exact ⟨_, ok, labels.trans holds.1, named ▸ holds.2, once, closed⟩

end PinnedStack
