import Mathlib.Data.List.Nodup
import PinnedStack.Compile
import PinnedStack.Proofs.Tree.JumpNumbers
import PinnedStack.Proofs.Typing.Visits

/-!
# Every label is defined once

* `Asm.labelsOf` — the labels that lines put in front of instructions.
* `jumpLabels` — the labels that a number stands for; `number_of_mem_jumpLabels` reads the number
  back.
* `Program.nodup_labels` — the lines of a program that a text spells define no label twice.
-/

namespace PinnedStack

namespace Asm

/-- The label that a line puts in front of the next instruction. -/
def Line.label? : Line → Option String
  | .label name => some name
  | _ => none

/-- The labels that lines put in front of instructions. -/
def labelsOf (lines : List Line) : List String := lines.filterMap Line.label?

@[simp] theorem labelsOf_append (a b : List Line) : labelsOf (a ++ b) = labelsOf a ++ labelsOf b := by
  simp [labelsOf]

@[simp] theorem labelsOf_nil : labelsOf [] = [] := rfl

@[simp] theorem labelsOf_instr (i : Instr) (lines : List Line) :
    labelsOf (.instr i :: lines) = labelsOf lines := rfl

@[simp] theorem labelsOf_label (name : String) (lines : List Line) :
    labelsOf (.label name :: lines) = name :: labelsOf lines := rfl

@[simp] theorem labelsOf_comment (text : String) (lines : List Line) :
    labelsOf (.comment text :: lines) = labelsOf lines := rfl

@[simp] theorem labelsOf_blank (lines : List Line) :
    labelsOf (.blank :: lines) = labelsOf lines := rfl

@[simp] theorem labelsOf_instrs (is : List Instr) : labelsOf (instrs is) = [] := by
  induction is with
  | nil => rfl
  | cons i is ih => simpa [instrs] using ih

end Asm

open Asm

/-! ## Labels of branches and loops -/

/-- The labels that the number of a branch or loop stands for. -/
def jumpLabels (n : Nat) : List String := [elseLabel n, endifLabel n, loopLabel n, endloopLabel n]

/-- The number in a label. -/
def numberIn (label : String) : Nat :=
  Nat.ofDigitChars 10 ((label.toList.dropWhile (!·.isDigit)).takeWhile Char.isDigit) 0

theorem takeWhile_isDigit_toString (n : Nat) (rest : List Char) :
    ((toString n).toList ++ '_' :: rest).takeWhile Char.isDigit = (toString n).toList := by
  have digits : ∀ c ∈ (toString n).toList, c.isDigit = true := by
    rw [Nat.toString_eq_repr, Nat.toList_repr]
    exact fun c mem => Nat.isDigit_of_mem_toDigits (by decide) (by decide) mem
  rw [List.takeWhile_append_of_pos digits]
  simp

theorem dropWhile_isDigit_toString (n : Nat) (rest : List Char) :
    ((toString n).toList ++ rest).dropWhile (!·.isDigit) = (toString n).toList ++ rest := by
  rw [Nat.toString_eq_repr, Nat.toList_repr]
  cases digits : Nat.toDigits 10 n with
  | nil => exact absurd digits Nat.toDigits_ne_nil
  | cons c cs =>
    have digit : c.isDigit = true :=
      Nat.isDigit_of_mem_toDigits (by decide) (by decide) (digits ▸ List.mem_cons_self ..)
    simp [digit]

/-- A number between letters is read back. -/
theorem numberIn_eq {label : String} {front rest : List Char} {n : Nat}
    (front_free : front.any Char.isDigit = false)
    (spelled : label.toList = front ++ ((toString n).toList ++ '_' :: rest)) :
    numberIn label = n := by
  have skipped : label.toList.dropWhile (!·.isDigit) = (toString n).toList ++ '_' :: rest := by
    rw [spelled, List.dropWhile_append_of_pos (by simpa using front_free)]
    exact dropWhile_isDigit_toString ..
  rw [numberIn, skipped, takeWhile_isDigit_toString, Nat.toString_eq_repr, Nat.toList_repr]
  exact Nat.ofDigitChars_toDigits (by decide) (by decide)

theorem toList_elseLabel (n : Nat) :
    (elseLabel n).toList = ['i', 'f', '_'] ++ ((toString n).toList ++ '_' :: "else".toList) := by
  simp only [elseLabel, String.toList_append]
  simp
  rfl

theorem toList_endifLabel (n : Nat) :
    (endifLabel n).toList = ['i', 'f', '_'] ++ ((toString n).toList ++ '_' :: "end".toList) := by
  simp only [endifLabel, String.toList_append]
  simp
  rfl

theorem toList_loopLabel (n : Nat) : (loopLabel n).toList
    = ['l', 'o', 'o', 'p', '_'] ++ ((toString n).toList ++ '_' :: "start".toList) := by
  simp only [loopLabel, String.toList_append]
  simp
  rfl

theorem toList_endloopLabel (n : Nat) : (endloopLabel n).toList
    = ['l', 'o', 'o', 'p', '_'] ++ ((toString n).toList ++ '_' :: "end".toList) := by
  simp only [endloopLabel, String.toList_append]
  simp
  rfl

theorem number_of_mem_jumpLabels {n : Nat} {label : String} (mem : label ∈ jumpLabels n) :
    numberIn label = n := by
  simp only [jumpLabels, List.mem_cons, List.not_mem_nil, or_false] at mem
  rcases mem with rfl | rfl | rfl | rfl
  · exact numberIn_eq rfl (toList_elseLabel n)
  · exact numberIn_eq rfl (toList_endifLabel n)
  · exact numberIn_eq rfl (toList_loopLabel n)
  · exact numberIn_eq rfl (toList_endloopLabel n)

theorem nodup_jumpLabels (n : Nat) : (jumpLabels n).Nodup := by
  have differ : ∀ a b : String, a.toList ≠ b.toList → a ≠ b := fun a b ne eq => ne (eq ▸ rfl)
  simp only [jumpLabels, List.nodup_cons, List.mem_cons, List.not_mem_nil, or_false, not_or,
    List.nodup_nil, and_true, not_false_eq_true]
  refine ⟨⟨?_, ?_, ?_⟩, ⟨?_, ?_⟩, ?_⟩ <;> apply differ <;>
    simp only [toList_elseLabel, toList_endifLabel, toList_loopLabel, toList_endloopLabel] <;> simp

theorem nodup_flatMap_jumpLabels {ns : List Nat} (h : ns.Nodup) : (ns.flatMap jumpLabels).Nodup := by
  refine List.nodup_flatMap.2 ⟨fun n _ => nodup_jumpLabels n, h.imp fun ne l left right => ne ?_⟩
  rw [← number_of_mem_jumpLabels left, number_of_mem_jumpLabels right]

mutual

/-- A node defines a label of its numbers at most once. -/
theorem Node.count_labels_le (label : String) : (n : Node) →
    (labelsOf n.lines).count label ≤ (n.jumps.flatMap jumpLabels).count label
  | .op _ _ => by simp [Node.lines]
  | .call _ _ => by simp [Node.lines]
  | .ifTrue body n _ => by
    have inner := count_labels_le label body
    simp only [Node.lines, Node.jumps, jumpLabels, labelsOf_comment, labelsOf_append,
      labelsOf_instrs, labelsOf_instr, labelsOf_label, labelsOf_nil, List.flatMap_cons,
      List.nil_append, List.cons_append, List.count_append, List.count_cons, List.count_nil] at *
    omega
  | .ifFalse body n _ => by
    have inner := count_labels_le label body
    simp only [Node.lines, Node.jumps, jumpLabels, labelsOf_comment, labelsOf_append,
      labelsOf_instrs, labelsOf_instr, labelsOf_label, labelsOf_nil, List.flatMap_cons,
      List.nil_append, List.cons_append, List.count_append, List.count_cons, List.count_nil] at *
    omega
  | .ifElse yes no n _ => by
    have left := count_labels_le label yes
    have right := count_labels_le label no
    simp only [Node.lines, Node.jumps, jumpLabels, labelsOf_comment, labelsOf_append,
      labelsOf_instrs, labelsOf_instr, labelsOf_label, labelsOf_nil, List.flatMap_cons,
      List.flatMap_append, List.nil_append, List.cons_append, List.count_append, List.count_cons,
      List.count_nil] at *
    omega
  | .loop _ condition body n _ => by
    have left := count_labels_le label condition
    have right := count_labels_le label body
    simp only [Node.lines, Node.jumps, jumpLabels, labelsOf_comment, labelsOf_append,
      labelsOf_instrs, labelsOf_instr, labelsOf_label, List.flatMap_cons, List.flatMap_append,
      List.nil_append, List.cons_append, List.count_append, List.count_cons, List.count_nil] at *
    omega

/-- Nodes define a label of their numbers at most once. -/
theorem count_labels_le (label : String) : (nodes : List Node) →
    (labelsOf (linesOf nodes)).count label ≤ ((jumpsOf nodes).flatMap jumpLabels).count label
  | [] => by simp [linesOf]
  | n :: ns => by
    have one := Node.count_labels_le label n
    have rest := count_labels_le label ns
    simp only [linesOf, jumpsOf, labelsOf_append, List.flatMap_append, List.count_append]
    omega

end

/-! ## Programs -/

/-- The labels that do not depend on the program. -/
def fixedLabels : List String :=
  (Routine.all.flatMap fun r => labelsOf r.block) ++ ["_start", "ret_stack_end"]

/-- The first character of a label. -/
def initialOf (label : String) : Option Char := label.toList.head?

theorem initialOf_functionLabel (n : Nat) : initialOf (functionLabel n) = some 'f' := by
  simp only [functionLabel, initialOf, String.toList_append]
  rfl

theorem initialOf_of_mem_jumpLabels {n : Nat} {label : String} (mem : label ∈ jumpLabels n) :
    initialOf label = some 'i' ∨ initialOf label = some 'l' := by
  simp only [jumpLabels, List.mem_cons, List.not_mem_nil, or_false] at mem
  rcases mem with rfl | rfl | rfl | rfl
  · exact .inl (by rw [initialOf, toList_elseLabel]; rfl)
  · exact .inl (by rw [initialOf, toList_endifLabel]; rfl)
  · exact .inr (by rw [initialOf, toList_loopLabel]; rfl)
  · exact .inr (by rw [initialOf, toList_endloopLabel]; rfl)

theorem initialOf_of_mem_fixedLabels : ∀ label ∈ fixedLabels,
    initialOf label ∉ [some 'f', some 'i', some 'l'] := by
  decide +kernel

theorem nodup_fixedLabels : fixedLabels.Nodup := by decide +kernel

theorem label_injective {label : Nat → String} {front : List Char}
    (spelled : ∀ n, (label n).toList = front ++ (toString n).toList) {n m : Nat}
    (same : label n = label m) : n = m := by
  have lists := congrArg String.toList same
  rw [spelled, spelled] at lists
  have digits := List.append_cancel_left lists
  rw [Nat.toString_eq_repr, Nat.toString_eq_repr, Nat.toList_repr, Nat.toList_repr] at digits
  have read := congrArg (Nat.ofDigitChars 10 · 0) digits
  simpa [Nat.ofDigitChars_toDigits] using read

theorem toList_functionLabel (n : Nat) :
    (functionLabel n).toList = ['f', 'n', '_'] ++ (toString n).toList := by
  simp only [functionLabel, String.toList_append]
  rfl

theorem functionLabel_injective {n m : Nat} (h : functionLabel n = functionLabel m) : n = m :=
  label_injective toList_functionLabel h

/-- The labels that a program may define. -/
def Program.allLabels (p : Program) : List String :=
  fixedLabels ++ ((List.range p.functions.length).map functionLabel
    ++ (jumpsOf p.main.body ++ p.functions.flatMap fun f => jumpsOf f.body).flatMap jumpLabels)

theorem Program.nodup_allLabels {p : Program}
    (jumps : (jumpsOf p.main.body ++ p.functions.flatMap fun f => jumpsOf f.body).Nodup) :
    p.allLabels.Nodup := by
  have functions : ((List.range p.functions.length).map functionLabel).Nodup :=
    List.nodup_range.map fun _ _ => functionLabel_injective
  have named : ∀ label ∈ (List.range p.functions.length).map functionLabel,
      initialOf label = some 'f' := by
    intro label mem
    obtain ⟨n, -, rfl⟩ := List.mem_map.1 mem
    exact initialOf_functionLabel n
  have numbered : ∀ label ∈ (jumpsOf p.main.body
      ++ p.functions.flatMap fun f => jumpsOf f.body).flatMap jumpLabels,
      initialOf label = some 'i' ∨ initialOf label = some 'l' := by
    intro label mem
    obtain ⟨n, -, mem⟩ := List.mem_flatMap.1 mem
    exact initialOf_of_mem_jumpLabels mem
  refine List.nodup_append.2 ⟨nodup_fixedLabels, List.nodup_append.2
    ⟨functions, nodup_flatMap_jumpLabels jumps, ?_⟩, ?_⟩
  · rintro a here b there rfl
    have first := named a here
    rcases numbered a there with second | second <;> simp [first] at second
  · rintro a here b there rfl
    have apart := initialOf_of_mem_fixedLabels a here
    rcases List.mem_append.1 there with there | there
    · simp [named a there] at apart
    · rcases numbered a there with first | first <;> simp [first] at apart

theorem labelsOf_literalLines (t : Tables) : labelsOf t.literalLines = [] := by
  have data : labelsOf (t.labelledLiterals.map fun e => .bytes e.1 e.2) = [] :=
    List.filterMap_eq_nil_iff.2 fun l mem => by
      obtain ⟨_, -, rfl⟩ := List.mem_map.1 mem
      rfl
  exact data

theorem labelsOf_spaceLines (t : Tables) (limits : Limits) :
    labelsOf (t.spaceLines limits) = ["ret_stack_end"] := by
  have regions : labelsOf (t.labelledRegions.map fun e =>
      .reserve e.1 .bytes (max e.2.size 1) (some e.2.name)) = [] :=
    List.filterMap_eq_nil_iff.2 fun l mem => by
      obtain ⟨_, -, rfl⟩ := List.mem_map.1 mem
      rfl
  exact congrArg ("ret_stack_end" :: ·) regions

theorem labelsOf_entryLines (main : Func) :
    labelsOf (entryLines main) = "_start" :: labelsOf (linesOf main.body) := by
  simp [entryLines]

theorem labelsOf_funcLines (f : Func) :
    labelsOf f.lines = f.label :: labelsOf (linesOf f.body) := by
  simp [Func.lines]

/-- A program defines no label more often than the list of all its labels has it. -/
theorem Program.count_labelsOf_le {p : Program}
    (labels : p.functions.map (·.label) = (List.range p.functions.length).map functionLabel)
    (tables : Tables) (limits : Limits) (label : String) :
    (labelsOf (p.lines tables limits)).count label ≤ p.allLabels.count label := by
  have main := count_labels_le label p.main.body
  have functions : ∀ fs : List Func, (labelsOf (fs.flatMap Func.lines)).count label
      ≤ (fs.map (·.label)).count label
        + ((fs.flatMap fun f => jumpsOf f.body).flatMap jumpLabels).count label := by
    intro fs
    induction fs with
    | nil => simp
    | cons f fs ih =>
      have body := count_labels_le label f.body
      simp only [List.flatMap_cons, List.map_cons, labelsOf_append, labelsOf_funcLines,
        List.flatMap_append, List.count_append, List.count_cons] at *
      omega
  have others := functions p.functions
  rw [labels] at others
  have start : labelsOf [Line.remark "Stoat compiler - generated NASM (x86-64 Linux)", .bits64,
      .blank, .sectionStart ".text", .globalLabel "_start"] = [] := rfl
  have routines : labelsOf (Routine.all.flatMap Routine.block)
      = Routine.all.flatMap fun r => labelsOf r.block := rfl
  simp only [Program.lines, allLabels, fixedLabels, labelsOf_append, start, routines,
    labelsOf_entryLines, labelsOf_literalLines, labelsOf_spaceLines, List.flatMap_append,
    List.count_append, List.count_cons, List.count_nil] at *
  omega

/-- **No label of a program is defined twice.** -/
theorem Program.nodup_labels {limits : Limits} {text : Scanned} {p : Program} {tables : Tables}
    (ok : Program.ofTokens limits text = .ok (p, tables)) :
    (labelsOf (p.lines tables limits)).Nodup := by
  have all := nodup_allLabels (nodup_jumps ok)
  rw [List.nodup_iff_count] at all ⊢
  exact fun label => Nat.le_trans
    (count_labelsOf_le (formed_of_ofTokens ok).labels tables limits label) (all label)

end PinnedStack
