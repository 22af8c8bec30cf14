import PinnedStack.Proofs.Emission.Origins

/-!
# Every label that is named is defined

* `Line.symbols`, `definesOf` — the labels that the instruction in a line names, and those that lines
  define, the labels of data among them.
* `Op.target_of_mem_code`, `Node.target_of_mem_ownLines` — where an operation and a node jump to.
* `Node.symbols_subset` — a branch or loop jumps to its own labels only.
* `Node.lines_perm`, `infix_of_mem_nodesIn` — a node is its own lines and those inside it, and its
  lines stand in those of the body.
* `Program.definesOf_perm`, `Program.nodup_definesOf` — no label is defined twice.
* `Program.defined` — every label that an instruction names is defined.
-/

namespace PinnedStack

open Asm

/-! ## What instructions name -/

def Asm.Mem.symbols : Mem → List String
  | symbol name => [name]
  | _ => []

def Asm.Operand.symbols : Operand → List String
  | mem m => m.symbols
  | qword m => m.symbols
  | byte m => m.symbols
  | address label => [label]
  | _ => []

/-- The labels that an instruction names. -/
def Asm.Instr.symbols (i : Instr) : List String :=
  i.operands.flatMap Operand.symbols ++ i.target?.toList

/-- The labels that the instruction in a line names. -/
def Asm.Line.symbols : Line → List String
  | instr i => i.symbols
  | _ => []

/-- The label that the instruction in a line may go on at. -/
def Asm.Line.target? : Line → Option String
  | instr i => i.target?
  | _ => none

theorem Asm.Line.target_eq_none {line : Line} (other : ∀ i, line ≠ .instr i) :
    line.target? = none := by
  cases line with
  | instr i => exact absurd rfl (other i)
  | _ => rfl

theorem Asm.Line.mem_symbols {line : Line} {l : String} :
    l ∈ line.symbols ↔ (∃ o ∈ line.operands, l ∈ o.symbols) ∨ l ∈ line.target? := by
  cases line <;> simp [symbols, operands, target?, Instr.symbols]

theorem Asm.Operand.symbols_of_isPlain {o : Operand} (plain : o.isPlain = true) :
    o.symbols = [] := by
  have inner : ∀ {m : Mem}, m.isPlain = true → m.symbols = [] := by
    intro m plain
    cases m with
    | «at» => rfl
    | offset => rfl
    | symbol => cases plain
  cases o with
  | mem m | qword m | byte m => exact inner plain
  | address => cases plain
  | reg | low | imm | char => rfl

theorem Asm.Operand.symbols_of_uses {o : Operand} {pin : Option Pin} {label : Option String}
    (uses : o.Uses pin label) : ∀ l ∈ o.symbols, l ∈ label := by
  rcases uses with plain | ⟨p, -, slot, -, rfl⟩ | ⟨l, held, rfl⟩
  · simp [symbols_of_isPlain plain]
  · exact nofun
  · simpa [symbols] using held

def definesOf (lines : List Line) : List String := lines.filterMap Line.defines?

@[simp] theorem definesOf_append (a b : List Line) :
    definesOf (a ++ b) = definesOf a ++ definesOf b := by
  simp [definesOf]

@[simp] theorem definesOf_cons (line : Line) (lines : List Line) :
    definesOf (line :: lines) = line.defines?.toList ++ definesOf lines := by
  cases h : line.defines? <;> simp [definesOf, h]

theorem mem_definesOf {lines : List Line} {l : String} :
    l ∈ definesOf lines ↔ ∃ line ∈ lines, line.defines? = some l := List.mem_filterMap

theorem definesOf_subset {a b : List Line} (within : a ⊆ b) : definesOf a ⊆ definesOf b :=
  List.filterMap_subset _ within

@[simp] theorem definesOf_instrs (is : List Instr) : definesOf (instrs is) = [] := by
  simp [definesOf, instrs, List.filterMap_map, Function.comp_def, Line.defines?]

/-! ## Where operations jump to -/

section Targets

/-- Does an instruction go on at no label? -/
def Asm.Instr.isStraight (i : Instr) : Bool := i.target?.isNone

theorem isStraight_pushNumber (value : Int64) : (pushNumber value).all Instr.isStraight = true := by
  unfold pushNumber
  split <;> rfl

theorem isStraight_combine (op : Binary) : op.combine.all Instr.isStraight = true := by
  cases op <;> rfl

theorem isStraight_map {α : Type} (make : α → Instr) (straight : ∀ a, (make a).target? = none)
    (as : List α) : (as.map make).all Instr.isStraight = true := by
  simp [Instr.isStraight, straight]

theorem isStraight_loadCode (access : Access) : access.loadCode.all Instr.isStraight = true := by
  cases access with
  | word => rfl
  | byte => rfl
  | record r => exact isStraight_map _ (fun _ => rfl) _

theorem isStraight_storeCode (access : Access) : access.storeCode.all Instr.isStraight = true := by
  cases access with
  | word => rfl
  | byte => rfl
  | record r => exact isStraight_map _ (fun _ => rfl) _

theorem Pin.isStraight_storeCode (p : Pin) : p.storeCode.all Instr.isStraight = true :=
  isStraight_map _ (fun _ => rfl) _

theorem Pin.isStraight_pushCode (p : Pin) : p.pushCode.all Instr.isStraight = true :=
  isStraight_map _ (fun _ => rfl) _

theorem target_eq_none {is : List Instr} (straight : is.all Instr.isStraight = true) :
    ∀ i ∈ is, i.target? = none :=
  fun i mem => Option.isNone_iff_eq_none.1 (List.all_eq_true.1 straight i mem)

/-- **An operation jumps to a routine or nowhere.** -/
theorem Op.target_of_mem_code (op : Op) :
    ∀ i ∈ op.code, ∀ l ∈ i.target?, l ∈ Routine.all.map Routine.name := by
  have straight : ∀ {is : List Instr}, is.all Instr.isStraight = true →
      ∀ i ∈ is, ∀ l ∈ i.target?, l ∈ Routine.all.map Routine.name :=
    fun none i mem l target => by simp [target_eq_none none i mem] at target
  cases op with
  | print =>
    show ∀ i ∈ [Instr.popReg .rdi, .call "print_decimal"], _
    decide
  | streq =>
    show ∀ i ∈ [Instr.popReg .rsi, .popReg .rdx, .popReg .rdi, .popReg .rcx, .call "str_equal",
      .pushReg .rax], _
    decide
  | number value => exact straight (isStraight_pushNumber value)
  | string label length =>
    refine straight ?_
    rw [Op.code, List.all_append, isStraight_pushNumber]
    rfl
  | binary op =>
    refine straight ?_
    rw [Op.code, Binary.code, List.all_append, List.all_append, isStraight_combine]
    rfl
  | load access =>
    refine straight ?_
    rw [Op.code, List.all_cons, isStraight_loadCode]
    rfl
  | store access =>
    refine straight ?_
    rw [Op.code, List.all_cons, isStraight_storeCode]
    rfl
  | field r f =>
    refine straight ?_
    rw [Op.code]
    split <;> rfl
  | syscall arguments =>
    refine straight ?_
    rw [Op.code, List.all_append, List.all_cons, isStraight_map _ fun _ => rfl]
    rfl
  | pin p => exact straight p.isStraight_storeCode
  | pinned p => exact straight p.isStraight_pushCode
  | update p => exact straight p.isStraight_storeCode
  | _ => exact straight rfl

end Targets

/-! ## Branches and loops -/

def Node.isBlock : Node → Bool
  | .op _ _ => false
  | .call _ _ => false
  | _ => true

/-- The nodes right inside a branch or loop. -/
def Node.parts : Node → List Node
  | .op _ _ => []
  | .call _ _ => []
  | .ifTrue body _ _ => body
  | .ifFalse body _ _ => body
  | .ifElse yes no _ _ => yes ++ no
  | .loop _ condition body _ _ => condition ++ body

section Own

variable {n : Node} {line : Line} {l : String}

theorem flatMap_symbols_instrs {is : List Instr} (quiet : ∀ i ∈ is, i.symbols = []) :
    (instrs is).flatMap Line.symbols = [] := by
  rw [instrs, List.flatMap_map, List.flatMap_eq_nil_iff]
  exact quiet

theorem Pin.symbols_storeCode (p : Pin) : (instrs p.storeCode).flatMap Line.symbols = [] := by
  refine flatMap_symbols_instrs fun i mem => ?_
  obtain ⟨slot, -, rfl⟩ := List.mem_map.1 mem
  rfl

theorem Pin.symbols_pushCode (p : Pin) : (instrs p.pushCode).flatMap Line.symbols = [] := by
  refine flatMap_symbols_instrs fun i mem => ?_
  obtain ⟨slot, -, rfl⟩ := List.mem_map.1 mem
  rfl

/-- **A branch or loop jumps to its own labels only.** -/
theorem Node.symbols_subset (block : n.isBlock = true) :
    n.ownLines.flatMap Line.symbols ⊆ definesOf n.ownLines := by
  have test : (instrs testTop).flatMap Line.symbols = [] := rfl
  cases n with
  | op | call => cases block
  | ifTrue body k place | ifFalse body k place | ifElse yes no k place =>
    simp [ownLines, test, Line.symbols, Instr.symbols, Instr.operands, Instr.target?, Line.defines?]
  | loop p condition body k place =>
    simp [ownLines, test, p.symbols_storeCode, p.symbols_pushCode, Line.symbols, Instr.symbols,
      Instr.operands, Instr.target?, Line.defines?]

/-- **A node jumps to a routine, to the function that it calls, or to its own labels.** -/
theorem Node.target_of_mem_ownLines (mem : line ∈ n.ownLines) (target : l ∈ line.target?) :
    l ∈ Routine.all.map Routine.name ∨ (∃ c place, n = .call c place ∧ l = c.label)
      ∨ l ∈ definesOf n.ownLines := by
  cases block : n.isBlock with
  | true =>
    have symbol : l ∈ line.symbols := Line.mem_symbols.2 (.inr target)
    exact .inr (.inr (n.symbols_subset block (List.mem_flatMap.2 ⟨line, mem, symbol⟩)))
  | false =>
    cases n with
    | op operation place =>
      obtain ⟨i, here, rfl⟩ := List.mem_map.1 mem
      exact .inl (operation.target_of_mem_code i here l target)
    | call c place =>
      refine .inr (.inl ⟨c, place, rfl, ?_⟩)
      simp only [ownLines, Call.code, instrs, List.map_cons, List.map_nil, List.mem_cons,
        List.not_mem_nil, or_false] at mem
      rcases mem with rfl | rfl | rfl | rfl | rfl | rfl
      all_goals cases target
      rfl
    | ifTrue | ifFalse | ifElse | loop => cases block

end Own

/-- The lines of a node are its own and those of the nodes inside it. -/
theorem Node.lines_perm (n : Node) : n.lines.Perm (n.ownLines ++ linesOf n.parts) := by
  rw [List.perm_iff_count]
  intro line
  cases n <;>
    simp only [lines, ownLines, parts, linesOf, linesOf_append, List.count_append, List.count_cons,
      List.count_nil, List.append_nil] <;>
    omega

theorem infix_split {a b c : List Line} {line : Line} : b <:+: a ++ line :: b ++ c :=
  ⟨a ++ [line], c, by simp⟩

theorem infix_append_left {a b c : List Line} (h : a <:+: b) : a <:+: b ++ c :=
  h.trans (List.prefix_append _ _).isInfix

mutual

/-- The lines of a node inside another stand in its lines. -/
theorem Node.infix_of_mem_within {m : Node} : (n : Node) → m ∈ n.within → m.lines <:+: n.lines
  | .op _ _, mem => List.mem_singleton.1 mem ▸ List.infix_refl _
  | .call _ _, mem => List.mem_singleton.1 mem ▸ List.infix_refl _
  | .ifTrue body _ _, mem => by
    rcases List.mem_cons.1 mem with rfl | mem
    · exact List.infix_refl _
    · exact (infix_of_mem_nodesIn body mem).trans infix_split
  | .ifFalse body _ _, mem => by
    rcases List.mem_cons.1 mem with rfl | mem
    · exact List.infix_refl _
    · exact (infix_of_mem_nodesIn body mem).trans infix_split
  | .ifElse yes no k place, mem => by
    rcases List.mem_cons.1 mem with rfl | mem
    · exact List.infix_refl _
    · rw [Node.lines]
      rcases List.mem_append.1 mem with mem | mem
      · exact infix_append_left ((infix_of_mem_nodesIn yes mem).trans infix_split)
      · refine (infix_of_mem_nodesIn no mem).trans ?_
        rw [← List.singleton_append (l := Line.label _ :: _), ← List.append_assoc]
        exact infix_split
  | .loop p condition body k place, mem => by
    rcases List.mem_cons.1 mem with rfl | mem
    · exact List.infix_refl _
    · rw [Node.lines]
      rcases List.mem_append.1 mem with mem | mem
      · exact infix_append_left (infix_append_left (infix_append_left (infix_append_left
          ((infix_of_mem_nodesIn condition mem).trans (List.suffix_append _ _).isInfix))))
      · exact infix_append_left ((infix_of_mem_nodesIn body mem).trans infix_split)

/-- The lines of a node inside a body stand in its lines. -/
theorem infix_of_mem_nodesIn {m : Node} :
    (nodes : List Node) → m ∈ nodesIn nodes → m.lines <:+: linesOf nodes
  | n :: ns, mem => by
    rcases List.mem_append.1 mem with mem | mem
    · exact (Node.infix_of_mem_within n mem).trans ⟨[], linesOf ns, rfl⟩
    · exact (infix_of_mem_nodesIn ns mem).trans ⟨n.lines, [], by simp [linesOf]⟩

end

/-! ## Data -/

/-- The labels of the entries in the tables. -/
def Tables.labels (t : Tables) : List String :=
  (List.range t.literals.length).map literalLabel ++ (List.range t.regions.length).map regionLabel

/-- The labels of the data that every program has. -/
def spaceLabels : List String := ["pins", "ret_stack_rsp", "ret_stack"]

theorem map_zipIdx {α : Type} (label : Nat → String) (as : List α) :
    as.zipIdx.map (label ·.2) = (List.range as.length).map label := by
  rw [List.range_eq_range', ← List.zipIdx_map_snd, List.map_map]
  rfl

theorem definesOf_map {α : Type} {make : α → Line} {label : α → String}
    (each : ∀ a, (make a).defines? = some (label a)) (as : List α) :
    definesOf (as.map make) = as.map label := by
  simp [definesOf, List.filterMap_map, each]

theorem definesOf_literalLines (t : Tables) :
    definesOf t.literalLines = (List.range t.literals.length).map Tables.literalLabel := by
  rw [← map_zipIdx, Tables.literalLines, definesOf_append,
    definesOf_map (fun _ => rfl : ∀ e : _ × _, _ = some e.1), Tables.labelledLiterals, List.map_map]
  rfl

theorem definesOf_spaceLines (t : Tables) (limits : Limits) :
    definesOf (t.spaceLines limits) = spaceLabels
      ++ "ret_stack_end" :: (List.range t.regions.length).map Tables.regionLabel := by
  rw [← map_zipIdx, Tables.spaceLines, definesOf_append,
    definesOf_map (fun _ => rfl : ∀ e : _ × _, _ = some e.1), Tables.labelledRegions, List.map_map]
  rfl

theorem toList_literalLabel (i : Nat) :
    (Tables.literalLabel i).toList = ['s', 't', 'r', '_'] ++ (toString i).toList := by
  simp only [Tables.literalLabel, String.toList_append]
  rfl

theorem toList_regionLabel (i : Nat) :
    (Tables.regionLabel i).toList = ['m', 'e', 'm', '_'] ++ (toString i).toList := by
  simp only [Tables.regionLabel, String.toList_append]
  rfl

/-- A label with a digit in it. -/
def isNumbered (label : String) : Bool := label.toList.any Char.isDigit

theorem any_isDigit_toString (n : Nat) : (toString n).toList.any Char.isDigit = true := by
  rw [Nat.toString_eq_repr, Nat.toList_repr]
  cases digits : Nat.toDigits 10 n with
  | nil => exact absurd digits Nat.toDigits_ne_nil
  | cons c cs =>
    have digit : c.isDigit = true :=
      Nat.isDigit_of_mem_toDigits (by decide) (by decide) (digits ▸ List.mem_cons_self ..)
    simp [digit]

/-- The labels of entries in the tables have a number, and their first letter is that of no label of
code with a number. -/
theorem Tables.initialOf_of_mem_labels {t : Tables} {label : String} (mem : label ∈ t.labels) :
    isNumbered label = true ∧ (initialOf label = some 's' ∨ initialOf label = some 'm') := by
  rcases List.mem_append.1 mem with mem | mem
  · obtain ⟨i, -, rfl⟩ := List.mem_map.1 mem
    rw [isNumbered, initialOf, toList_literalLabel, List.any_append, any_isDigit_toString]
    exact ⟨rfl, .inl rfl⟩
  · obtain ⟨i, -, rfl⟩ := List.mem_map.1 mem
    rw [isNumbered, initialOf, toList_regionLabel, List.any_append, any_isDigit_toString]
    exact ⟨rfl, .inr rfl⟩

theorem Tables.nodup_labels (t : Tables) : t.labels.Nodup := by
  refine List.nodup_append.2 ⟨List.nodup_range.map fun _ _ => label_injective toList_literalLabel,
    List.nodup_range.map fun _ _ => label_injective toList_regionLabel, ?_⟩
  rintro a here b there rfl
  obtain ⟨i, -, rfl⟩ := List.mem_map.1 here
  obtain ⟨j, -, eq⟩ := List.mem_map.1 there
  have first := congrArg initialOf eq
  rw [initialOf, initialOf, toList_literalLabel, toList_regionLabel] at first
  cases first

/-! ## Programs -/

section Programs

variable {p : Program} {tables : Tables} {limits : Limits} {line : Line} {l : String}

/-- A line of code: the only label that it defines is the one that it puts in front of an
instruction. -/
def Asm.Line.isCode (line : Line) : Bool := line.defines? == line.label?

theorem isCode_instrs (is : List Instr) : (instrs is).all Line.isCode = true := by
  simp [instrs, Line.isCode, Line.defines?, Line.label?]

theorem Node.isCode_ownLines (n : Node) : n.ownLines.all Line.isCode = true := by
  cases n <;> simp [ownLines, isCode_instrs, Line.isCode, Line.defines?, Line.label?]

theorem isCode_linesOf (nodes : List Node) : (linesOf nodes).all Line.isCode = true := by
  refine List.all_eq_true.2 fun line mem => ?_
  obtain ⟨n, -, own⟩ := (mem_linesOf nodes).1 mem
  exact List.all_eq_true.1 n.isCode_ownLines line own

theorem Func.isCode_lines (f : Func) : f.lines.all Line.isCode = true := by
  rw [f.lines_eq, List.all_append, List.all_append, isCode_linesOf, isCode_instrs, Func.opening,
    List.all_append, isCode_instrs]
  simp [Line.isCode, Line.defines?, Line.label?]

theorem definesOf_eq_labelsOf {lines : List Line} (code : lines.all Line.isCode = true) :
    definesOf lines = labelsOf lines :=
  List.filterMap_congr fun line mem => beq_iff_eq.1 (List.all_eq_true.1 code line mem)

/-- The lines of a program are code, which defines the labels in front of its instructions, and
data. -/
theorem Program.exists_code (p : Program) (tables : Tables) (limits : Limits) :
    ∃ code, p.lines tables limits = code ++ tables.literalLines ++ tables.spaceLines limits
      ∧ definesOf code = labelsOf code := by
  refine ⟨_, rfl, definesOf_eq_labelsOf ?_⟩
  have routines : (Routine.all.flatMap Routine.block).all Line.isCode = true := by decide +kernel
  have entry : (entryLines p.main).all Line.isCode = true := by
    rw [entryLines_eq, List.all_append, List.all_append, isCode_linesOf]
    decide +kernel
  have functions : (p.functions.flatMap Func.lines).all Line.isCode = true := by
    simp [List.all_flatMap, Func.isCode_lines]
  rw [List.all_append, List.all_append, List.all_append, routines, entry, functions]
  rfl

/-- **What a program defines**: the labels of its code and those of its data. -/
theorem Program.definesOf_perm : (definesOf (p.lines tables limits)).Perm
    (labelsOf (p.lines tables limits) ++ (spaceLabels ++ tables.labels)) := by
  obtain ⟨code, split, same⟩ := p.exists_code tables limits
  rw [split, definesOf_append, definesOf_append, same, definesOf_literalLines, definesOf_spaceLines,
    labelsOf_append, labelsOf_append, labelsOf_literalLines, labelsOf_spaceLines,
    List.perm_iff_count]
  intro label
  simp only [Tables.labels, List.count_append, List.count_cons, List.count_nil]
  omega

/-- The labels that a program may define, with those of its data. -/
def Program.everyLabel (p : Program) (tables : Tables) : List String :=
  p.allLabels ++ (spaceLabels ++ tables.labels)

/-- The labels of the code of a program, if they have no number, are those that every program has. -/
theorem Program.initialOf_of_mem_allLabels {label : String} (mem : label ∈ p.allLabels) :
    label ∈ fixedLabels
      ∨ initialOf label = some 'f' ∨ initialOf label = some 'i' ∨ initialOf label = some 'l' := by
  rcases List.mem_append.1 mem with mem | mem
  · exact .inl mem
  · rcases List.mem_append.1 mem with mem | mem
    · obtain ⟨n, -, rfl⟩ := List.mem_map.1 mem
      exact .inr (.inl (initialOf_functionLabel n))
    · obtain ⟨n, -, mem⟩ := List.mem_flatMap.1 mem
      exact .inr (.inr (initialOf_of_mem_jumpLabels mem))

theorem Program.nodup_everyLabel (code : p.allLabels.Nodup) : (p.everyLabel tables).Nodup := by
  have fixed : ∀ label ∈ fixedLabels, isNumbered label = false ∧ label ∉ spaceLabels := by
    decide +kernel
  have space : ∀ label ∈ spaceLabels, isNumbered label = false
      ∧ initialOf label ∉ [some 'f', some 'i', some 'l'] := by decide +kernel
  have data : (spaceLabels ++ tables.labels).Nodup := by
    refine List.nodup_append.2 ⟨by decide, tables.nodup_labels, ?_⟩
    rintro a here b there rfl
    have none := (space a here).1
    rw [(Tables.initialOf_of_mem_labels there).1] at none
    cases none
  refine List.nodup_append.2 ⟨code, data, ?_⟩
  rintro a here b there rfl
  rcases List.mem_append.1 there with there | there
  · rcases initialOf_of_mem_allLabels here with mem | first | first | first
    · exact (fixed a mem).2 there
    all_goals exact (space a there).2 (by simp [first])
  · obtain ⟨numbered, second⟩ := Tables.initialOf_of_mem_labels there
    rcases initialOf_of_mem_allLabels here with mem | first
    · rw [(fixed a mem).1] at numbered
      cases numbered
    · rcases first with first | first | first <;> rcases second with second | second <;>
        simp [first] at second

/-- What a program defines is among the labels that it may define. -/
theorem Program.definesOf_subset_everyLabel
    (labels : p.functions.map (·.label) = (List.range p.functions.length).map functionLabel) :
    definesOf (p.lines tables limits) ⊆ p.everyLabel tables := by
  intro label mem
  rcases List.mem_append.1 (definesOf_perm.mem_iff.1 mem) with mem | mem
  · have often := List.count_pos_iff.2 mem
    have most := count_labelsOf_le labels tables limits label
    exact List.mem_append_left _ (List.count_pos_iff.1 (by omega))
  · exact List.mem_append_right _ mem

/-- **No label is defined twice**, in the code or in the data. -/
theorem Program.nodup_definesOf {text : Scanned}
    (ok : Program.ofTokens limits text = .ok (p, tables)) :
    (definesOf (p.lines tables limits)).Nodup := by
  rw [definesOf_perm.nodup_iff]
  have every : (p.everyLabel tables).Nodup := nodup_everyLabel (nodup_allLabels (nodup_jumps ok))
  obtain ⟨-, data, apart⟩ := List.nodup_append.1 every
  refine List.nodup_append.2 ⟨nodup_labels ok, data, fun a here b there => apart a ?_ b there⟩
  have most := count_labelsOf_le (formed_of_ofTokens ok).labels tables limits a
  have often := List.count_pos_iff.2 here
  exact List.count_pos_iff.1 (by omega)

/-- The calls of a well-scoped body are to known functions, at any depth. -/
theorem Scoped.known_of_mem_nodesIn {callees : List Call} {scope : List Pin} {first stop : Nat}
    {nodes : List Node} (h : Scoped callees scope first stop nodes) :
    ∀ c place, .call c place ∈ nodesIn nodes → c ∈ callees := by
  have none : ∀ {n : Node} {inner : List Node} {c : Call} {place : Place}, n.isBlock = true →
      n.within = n :: nodesIn inner → .call c place ∈ nodesIn [n] →
      .call c place ∈ nodesIn inner := by
    intro n inner c place block within mem
    simp only [nodesIn, within, List.append_nil] at mem
    rcases List.mem_cons.1 mem with rfl | mem
    · cases block
    · exact mem
  induction h with
  | nil => exact nofun
  | append _ _ left right =>
    intro c place mem
    rw [nodesIn_append] at mem
    exact (List.mem_append.1 mem).elim (left c place) (right c place)
  | op => exact fun c place mem => by cases List.mem_singleton.1 mem
  | call known =>
    intro c place mem
    cases List.mem_singleton.1 mem
    exact known
  | ifTrue _ inner => exact fun c place mem => inner c place (none rfl rfl mem)
  | ifFalse _ inner => exact fun c place mem => inner c place (none rfl rfl mem)
  | ifElse _ _ left right =>
    intro c place mem
    have mem := none rfl (by rw [nodesIn_append, Node.within]) mem
    rw [nodesIn_append] at mem
    exact (List.mem_append.1 mem).elim (left c place) (right c place)
  | loop _ _ _ left right =>
    intro c place mem
    have mem := none rfl (by rw [nodesIn_append, Node.within]) mem
    rw [nodesIn_append] at mem
    exact (List.mem_append.1 mem).elim (left c place) (right c place)
  | bind _ _ _ inner =>
    intro c place mem
    simp only [nodesIn_append, nodesIn_pinNodes, nodesIn_unpinNodes, List.mem_append] at mem
    simp only [Reader.pinNodes, Reader.unpinNodes, List.mem_map, reduceCtorEq, and_false,
      exists_false, false_or, or_false] at mem
    exact inner c place mem

/-- The labels of the data, of the routines and of the functions are defined. -/
theorem Program.defined_of_mem
    (mem : l ∈ spaceLabels ++ tables.labels ++ ["ret_stack_end"] ++ Routine.all.map Routine.name
      ++ p.functions.map (·.label)) : l ∈ definesOf (p.lines tables limits) := by
  have held : ∀ {line : Line}, p.Holds tables limits line → line.defines? = some l →
      l ∈ definesOf (p.lines tables limits) :=
    fun holds defines => mem_definesOf.2 ⟨_, mem_lines.2 holds, defines⟩
  simp only [List.mem_append, or_assoc] at mem
  rcases mem with space | data | start | name | label
  · exact definesOf_perm.mem_iff.2 (List.mem_append_right _ (List.mem_append_left _ space))
  · exact definesOf_perm.mem_iff.2 (List.mem_append_right _ (List.mem_append_right _ data))
  · obtain rfl := List.mem_singleton.1 start
    have mem : .label "ret_stack_end" ∈ tables.spaceLines limits := List.mem_append_left _ (by simp)
    exact held (.space mem) rfl
  · obtain ⟨r, known, rfl⟩ := List.mem_map.1 name
    have mem : .label r.name ∈ r.block := List.mem_append_left _ (by simp)
    exact held (.routine (List.mem_flatMap.2 ⟨r, known, mem⟩)) rfl
  · obtain ⟨f, known, rfl⟩ := List.mem_map.1 label
    have mem : .label f.label ∈ f.opening := List.mem_append_left _ (by simp)
    exact held (.function known (List.mem_append_left _ mem)) rfl

theorem Program.defined_of_mem_target {capacity : Nat} (formed : p.Formed capacity)
    (mem : line ∈ p.lines tables limits) (target : l ∈ line.target?) :
    l ∈ definesOf (p.lines tables limits) := by
  have quiet : line.target? = none → l ∈ definesOf (p.lines tables limits) := fun none => by
    simp [none] at target
  have straight : ∀ {is : List Instr}, is.all Instr.isStraight = true → line ∈ instrs is →
      l ∈ definesOf (p.lines tables limits) := by
    intro is all mem
    obtain ⟨i, here, rfl⟩ := List.mem_map.1 mem
    exact quiet (target_eq_none all i here)
  cases mem_lines.1 mem with
  | heading mem =>
    have none : ∀ line ∈ PinnedStack.heading, line.target? = none := by decide
    exact quiet (none line mem)
  | routine here =>
    have inner : ∀ line ∈ Routine.all.flatMap Routine.block, ∀ l ∈ line.target?,
        l ∈ definesOf (Routine.all.flatMap Routine.block) := by decide +kernel
    exact definesOf_subset (fun line mem => mem_lines.2 (.routine mem)) (inner line here l target)
  | entry mem =>
    have none : ∀ line ∈ entryOpening ++ entryEnding, line.target? = none := by decide
    exact quiet (none line mem)
  | @function f known mem =>
    simp only [Func.opening, List.mem_append] at mem
    rcases mem with (mem | mem) | mem
    · simp only [List.mem_cons, List.not_mem_nil, or_false] at mem
      rcases mem with rfl | rfl | rfl <;> exact quiet rfl
    · refine straight ?_ mem
      rw [Func.entering, List.all_append, isStraight_map _ fun _ => rfl]
      rfl
    · refine straight ?_ mem
      rw [Func.leaving, List.all_append, List.all_append, isStraight_map _ fun _ => rfl]
      rfl
  | @node f n body inside own =>
    rcases Node.target_of_mem_ownLines own target with name | ⟨c, place, rfl, rfl⟩ | inner
    · exact defined_of_mem (List.mem_append_left _ (List.mem_append_right _ name))
    · obtain ⟨_, _, nested⟩ := formed.scoped f body
      obtain ⟨g, known, rfl⟩ := List.mem_map.1 (nested.known_of_mem_nodesIn c place inside)
      exact defined_of_mem (List.mem_append_right _ (List.mem_map_of_mem known))
    · exact definesOf_subset (fun line mem => mem_lines.2 (.node body inside mem)) inner
  | literal mem => exact quiet (Line.target_eq_none (tables.no_code limits (.inl mem)))
  | space mem => exact quiet (Line.target_eq_none (tables.no_code limits (.inr mem)))

/-- **Every label that an instruction names is defined**, if those whose address is pushed are. -/
theorem Program.defined {capacity : Nat} (formed : p.Formed capacity)
    (stored : ∀ f ∈ p.bodies, ∀ n ∈ nodesIn f.body, ∀ l ∈ n.label?, l ∈ tables.labels)
    (mem : line ∈ p.lines tables limits) (named : l ∈ line.symbols) :
    l ∈ definesOf (p.lines tables limits) := by
  rcases Line.mem_symbols.1 named with ⟨o, operand, symbol⟩ | target
  · cases mentions_of_mem_lines mem operand with
    | plain plain => simp [Operand.symbols_of_isPlain plain] at symbol
    | pointer eq =>
      subst eq
      obtain rfl := List.mem_singleton.1 symbol
      exact defined_of_mem (by simp [spaceLabels])
    | start start =>
      refine defined_of_mem ?_
      rcases List.mem_pair.1 start with rfl | rfl <;> obtain rfl := List.mem_singleton.1 symbol <;>
        simp [spaceLabels]
    | node body inside uses =>
      have data := stored _ body _ inside l (Operand.symbols_of_uses uses l symbol)
      simp only [List.mem_append, defined_of_mem, data, or_true, true_or]
    | saved _ _ eq =>
      subst eq
      cases symbol
  · exact defined_of_mem_target formed mem target

end Programs

end PinnedStack
