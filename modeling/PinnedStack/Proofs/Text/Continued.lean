import PinnedStack.Proofs.Text.Closed

/-!
# Lines that go on

An assembler takes a line that ends in a backslash together with the next one, also where the
backslash stands in a comment.

* `Continued`, `joined` — such a line, and the lines as an assembler takes them.
* `Line.note?` — the comment on a line. `Line.Legible.continued_iff` — a line goes on just if its
  comment ends in a backslash.
* `Program.trailing_of_mem_lines` — of all comments only those of calls and of memories end so.
* `continued_lines` — which lines of an emitted text go on, and when none does.
-/

namespace PinnedStack

def EndsInBackslash (text : String) : Prop := text.toList.getLast? = some '\\'

instance (text : String) : Decidable (EndsInBackslash text) :=
  inferInstanceAs (Decidable (text.toList.getLast? = some '\\'))

namespace Asm

/-! ## Lines of a text -/

def rawLines (text : String) : List (List Char) := text.toList.splitOnP (· == '\n')

/-- A line that ends in a backslash. -/
def Continued (line : List Char) : Prop := line.getLast? = some '\\'

instance (line : List Char) : Decidable (Continued line) :=
  inferInstanceAs (Decidable (line.getLast? = some '\\'))

/-- Puts what a line holds in front of the first of the lines that follow. -/
def attach (line : List Char) : List (List Char) → List (List Char)
  | [] => [line]
  | next :: rest => (line ++ next) :: rest

/-- Lines as an assembler takes them: one that ends in a backslash goes on in the next. -/
def joined : List (List Char) → List (List Char)
  | [] => []
  | line :: rest =>
      if Continued line then attach line.dropLast (joined rest) else line :: joined rest

theorem length_joined_le (lines : List (List Char)) : (joined lines).length ≤ lines.length := by
  induction lines with
  | nil => exact Nat.le_refl 0
  | cons line lines ih =>
    rw [joined, List.length_cons]
    split
    · cases rest : joined lines with
      | nil => simp [attach]
      | cons next others =>
        rw [rest, List.length_cons] at ih
        simp only [attach, List.length_cons]
        omega
    · simpa using ih

/-- An assembler takes all lines as they are just if none goes on. -/
theorem joined_eq_self_iff {lines : List (List Char)} :
    joined lines = lines ↔ ∀ line ∈ lines, ¬ Continued line := by
  induction lines with
  | nil => simp [joined]
  | cons line lines ih =>
    rw [List.forall_mem_cons, joined]
    split
    · rename_i goes
      refine iff_of_false (fun same => ?_) fun none => none.1 goes
      have shorter := length_joined_le lines
      cases rest : joined lines with
      | nil =>
        rw [rest, attach, List.cons.injEq] at same
        have cut := congrArg List.length same.1
        have any : line ≠ [] := List.ne_nil_of_mem (List.mem_of_getLast? goes)
        rw [List.length_dropLast] at cut
        have := List.length_pos_of_ne_nil any
        omega
      | cons next others =>
        rw [rest, attach] at same
        have cut := congrArg List.length same
        rw [rest] at shorter
        simp only [List.length_cons] at cut shorter
        omega
    · rename_i stops
      simp [ih, stops]

/-! ## Comments -/

def Line.note? : Line → Option String
  | comment text => some text
  | remark text => some text
  | reserve _ _ _ note => note
  | _ => none

theorem not_continued {chars : List Char} (other : ∀ c ∈ chars, c ≠ '\\') : ¬ Continued chars :=
  fun last => other _ (List.mem_of_getLast? last) rfl

/-- Behind a blank, characters end in a backslash just if they do so by themselves. -/
theorem continued_append_iff {front : List Char} {text : String} :
    Continued (front ++ ' ' :: text.toList) ↔ EndsInBackslash text := by
  rw [Continued, EndsInBackslash, List.getLast?_append_of_ne_nil _ (List.cons_ne_nil _ _)]
  cases text.toList with
  | nil => simp
  | cons c cs => rw [List.getLast?_cons_cons]

theorem isNameChar_backslash {chars : List Char} (name : chars.all isNameChar = true) :
    ∀ c ∈ chars, c ≠ '\\' :=
  fun c mem => isNameChar_ne (List.all_eq_true.1 name c mem) rfl

/-- **A line goes on just if its comment ends in a backslash.** -/
theorem Line.Legible.continued_iff {line : Line} (legible : line.Legible) :
    Continued line.chars ↔ ∃ text, line.note? = some text ∧ EndsInBackslash text := by
  have silent : line.note? = none → (∀ c ∈ line.chars, c ≠ '\\') →
      (Continued line.chars ↔ ∃ text, line.note? = some text ∧ EndsInBackslash text) := by
    intro none other
    simp [none, not_continued other]
  have noted : ∀ (front : List Char) {text : String}, line.note? = some text →
      line.chars = front ++ ' ' :: text.toList →
      (Continued line.chars ↔ ∃ text, line.note? = some text ∧ EndsInBackslash text) := by
    intro front text held spelled
    rw [spelled, continued_append_iff, held]
    simp
  cases line with
  | instr i =>
    refine silent rfl fun c mem => ?_
    rcases List.mem_append.1 mem with mem | mem
    · have blank : c = ' ' := by simpa [indent] using mem
      exact blank ▸ by decide
    · rintro rfl
      exact absurd (List.all_eq_true.1 (Instr.all_isCodeChar_text legible) _ mem) (by decide)
  | label name =>
    refine silent rfl (List.forall_mem_append.2 ⟨isNameChar_backslash legible.chars, ?_⟩)
    simp
  | comment text => exact noted (indent ++ [';']) rfl (by simp [Line.chars, Line.row, Row.chars])
  | remark text => exact noted [';'] rfl String.toList_append
  | blank => exact silent rfl (List.forall_mem_nil _)
  | bits64 => exact silent rfl (List.forall_mem_ne'.2 (by decide +kernel))
  | sectionStart name =>
    have spelled : (Line.sectionStart name).chars = "section ".toList ++ name.toList :=
      String.toList_append
    refine silent rfl (spelled ▸ List.forall_mem_append.2 ⟨List.forall_mem_ne'.2 ?_, ?_⟩)
    · decide +kernel
    · exact isNameChar_backslash legible
  | globalLabel name =>
    have spelled : (Line.globalLabel name).chars = "global ".toList ++ name.toList :=
      String.toList_append
    refine silent rfl (spelled ▸ List.forall_mem_append.2 ⟨List.forall_mem_ne'.2 ?_, ?_⟩)
    · decide +kernel
    · exact isNameChar_backslash legible
  | bytes name values =>
    have spelled : (Line.bytes name values).chars
        = name.toList ++ (": db ".toList ++ (bytesText values).toList) := by
      simp [Line.chars, Line.row, Row.chars]
      rfl
    refine silent rfl (spelled ▸ List.forall_mem_append.2 ⟨isNameChar_backslash legible.chars,
      List.forall_mem_append.2 ⟨List.forall_mem_ne'.2 (by decide +kernel), ?_⟩⟩)
    rintro c mem rfl
    exact not_mem_bytesText rfl (by decide) values mem
  | reserve name space count note =>
    cases note with
    | none =>
      have spelled : (Line.reserve name space count none).chars
          = name.toList ++ (": ".toList ++ (space.text.toList ++ (" ".toList ++ count.repr.toList))) := by
        simp [Line.chars, Line.row, Row.chars]
        rfl
      refine silent rfl (spelled ▸ ?_)
      simp only [List.forall_mem_append]
      refine ⟨isNameChar_backslash legible.1.chars, List.forall_mem_ne'.2 ?_,
        List.forall_mem_ne'.2 ?_, List.forall_mem_ne'.2 ?_, ?_⟩
      · decide +kernel
      · cases space <;> decide +kernel
      · decide +kernel
      · exact isNameChar_backslash (all_isNameChar_repr count)
    | some text =>
      refine noted (name.toList ++ ": ".toList ++ space.text.toList ++ " ".toList
        ++ count.repr.toList ++ " ;".toList) rfl ?_
      simp [Line.chars, Line.row, Row.chars]
      rfl

end Asm

open Asm

/-! ## Comments of programs -/

theorem endsInBackslash_call_iff {name : String} :
    EndsInBackslash s!"call {name}" ↔ EndsInBackslash name := by
  have spelled : (s!"call {name}").toList = "call".toList ++ ' ' :: name.toList := String.toList_append
  rw [EndsInBackslash, spelled]
  exact continued_append_iff

theorem not_endsInBackslash_paren (text : String) : ¬ EndsInBackslash (text ++ ")") := by
  rw [EndsInBackslash, String.toList_append]
  simp

section Programs

variable {p : Program} {tables : Tables} {limits : Limits} {line : Line} {text : String}

theorem note?_instrs (is : List Instr) : ∀ line ∈ instrs is, line.note? = none := by
  intro line mem
  obtain ⟨i, -, rfl⟩ := List.mem_map.1 mem
  rfl

/-- The comments among the lines of a node are its remark. -/
theorem Node.remark?_of_note? {n : Node} (own : line ∈ n.ownLines) (note : line.note? = some text) :
    n.remark? = some text := by
  have silent : ∀ {is : List Instr}, line ∉ instrs is := fun mem => by
    rw [note?_instrs _ line mem] at note
    cases note
  have other : ∀ {label : String}, line ≠ .label label := fun eq => by
    subst eq
    cases note
  have jump : ∀ {i : Instr}, line ≠ .instr i := fun eq => by
    subst eq
    cases note
  have first : ∀ {remark : String}, line = .comment remark → remark = text := fun eq => by
    subst eq
    exact Option.some.inj note
  cases n with
  | op => exact absurd own silent
  | call =>
    simp only [ownLines, List.mem_cons, silent, or_false] at own
    exact congrArg some (first own)
  | ifTrue | ifFalse | ifElse | loop =>
    simp only [ownLines, List.cons_append, List.mem_append, List.mem_cons, List.not_mem_nil, silent,
      other, jump, or_false] at own
    exact congrArg some (first own)

/-- A remark that ends in a backslash is that of a call. -/
theorem Node.call_of_remark? {n : Node} (remark : n.remark? = some text)
    (ends : EndsInBackslash text) :
    ∃ c place, n = .call c place ∧ text = s!"call {c.name}" ∧ EndsInBackslash c.name := by
  cases n with
  | op => cases remark
  | call c place =>
    cases remark
    exact ⟨c, place, rfl, rfl, endsInBackslash_call_iff.1 ends⟩
  | ifTrue | ifFalse | ifElse | loop =>
    cases remark
    exact absurd ends (not_endsInBackslash_paren _)

/-- The lines whose comment is a name that ends in a backslash. -/
inductive Program.Trailing (p : Program) (tables : Tables) : Line → Prop where
  | call {f : Func} {c : Call} {place : Place} (body : f ∈ p.bodies)
      (inside : .call c place ∈ nodesIn f.body) (ends : EndsInBackslash c.name) :
      Trailing p tables (.comment s!"call {c.name}")
  | memory {label : String} {region : Region} (stored : (label, region) ∈ tables.labelledRegions)
      (ends : EndsInBackslash region.name) :
      Trailing p tables (.reserve label .bytes (max region.size 1) (some region.name))

/-- **Of all comments only those of calls and of memories end in a backslash.** -/
theorem Program.trailing_of_mem_lines (mem : line ∈ p.lines tables limits)
    (note : line.note? = some text) (ends : EndsInBackslash text) : p.Trailing tables line := by
  have silent : ∀ {lines : List Line}, line ∈ lines →
      (∀ line ∈ lines, ∀ text ∈ line.note?, ¬ EndsInBackslash text) → p.Trailing tables line :=
    fun mem none => absurd ends (none line mem text note)
  have noteless : ∀ text ∈ (none : Option String), ¬ EndsInBackslash text :=
    fun text held => absurd held (Option.not_mem_none text)
  cases mem_lines.1 mem with
  | heading mem => exact silent mem (by decide +kernel)
  | routine mem => exact silent mem (by decide +kernel)
  | entry mem => exact silent mem (by decide +kernel)
  | @function f known mem =>
    have code : ∀ is : List Instr, ∀ line ∈ instrs is, ∀ text ∈ line.note?, ¬ EndsInBackslash text := by
      intro is line mem text held
      rw [note?_instrs is line mem] at held
      cases held
    refine silent mem (List.forall_mem_append.2 ⟨List.forall_mem_append.2 ⟨?_, code _⟩, code _⟩)
    simp only [List.forall_mem_cons, List.not_mem_nil, false_imp_iff, implies_true, and_true]
    refine ⟨noteless, fun text held => ?_, noteless⟩
    obtain rfl := Option.some.inj held
    exact not_endsInBackslash_paren _
  | @node f n body inside own =>
    obtain ⟨c, place, rfl, rfl, name⟩ := Node.call_of_remark? (Node.remark?_of_note? own note) ends
    rcases List.mem_cons.1 own with rfl | mem
    · exact .call body inside name
    · rw [note?_instrs _ line mem] at note
      cases note
  | literal mem =>
    refine silent mem (List.forall_mem_append.2 ⟨by decide +kernel, fun line mem => ?_⟩)
    obtain ⟨e, -, rfl⟩ := List.mem_map.1 mem
    exact noteless
  | space mem =>
    rcases List.mem_append.1 mem with mem | mem
    · refine silent mem ?_
      simp [Line.note?]
    · obtain ⟨⟨label, region⟩, stored, rfl⟩ := List.mem_map.1 mem
      cases note
      exact .memory stored ends

theorem Program.Trailing.mem_lines (trailing : p.Trailing tables line) :
    line ∈ p.lines tables limits ∧ ∃ text, line.note? = some text ∧ EndsInBackslash text := by
  cases trailing with
  | call body inside ends =>
    exact ⟨Program.mem_lines.2 (.node body inside (List.mem_cons_self ..)), _, rfl,
      endsInBackslash_call_iff.2 ends⟩
  | memory stored ends =>
    exact ⟨Program.mem_lines.2 (.space (List.mem_append_right _ (List.mem_map_of_mem stored))), _,
      rfl, ends⟩

end Programs

/-! ## Emitted texts -/

/-- No called function and no memory has a name that ends in a backslash. -/
def Program.Plain (p : Program) (tables : Tables) : Prop :=
  (∀ f ∈ p.bodies, ∀ c place, .call c place ∈ nodesIn f.body → ¬ EndsInBackslash c.name)
    ∧ ∀ r ∈ tables.regions, ¬ EndsInBackslash r.name

theorem Program.plain_iff {p : Program} {tables : Tables} :
    p.Plain tables ↔ ∀ line, ¬ p.Trailing tables line := by
  constructor
  · rintro ⟨calls, regions⟩ line trailing
    cases trailing with
    | call body inside ends => exact calls _ body _ _ inside ends
    | memory stored ends =>
      obtain ⟨⟨region, i⟩, listed, eq⟩ := List.mem_map.1 stored
      cases eq
      exact regions _ (List.fst_mem_of_mem_zipIdx listed) ends
  · intro none
    refine ⟨fun f body c place inside ends => none _ (.call body inside ends), fun r mem ends => ?_⟩
    obtain ⟨i, bound, rfl⟩ := List.getElem_of_mem mem
    have stored : (Tables.regionLabel i, tables.regions[i]) ∈ tables.labelledRegions :=
      List.mem_map.2 ⟨_, List.mk_mem_zipIdx_iff_getElem?.2 (List.getElem?_eq_getElem bound), rfl⟩
    exact none _ (.memory stored ends)

/-- The lines of an emitted text are those of its program. -/
theorem rawLines_compile {limits : Limits} {source file asm : String} (whole : Unbroken file)
    (ok : compile limits source file = .ok asm) :
    ∃ p tables, check limits source file = .ok (p, tables)
      ∧ (∀ line ∈ p.lines tables limits, line.Legible)
      ∧ rawLines asm = (p.lines tables limits).map Line.chars ++ [[]] := by
  obtain ⟨⟨p, tables⟩, checked, eq⟩ := Except.bind_eq_ok.1 ok
  cases eq
  obtain ⟨spelled, -⟩ := check_eq_ok.1 checked
  have tidy := Program.tidy_of_ofText whole spelled
  obtain ⟨text, -, spelled⟩ := Program.ofText_eq_ok spelled
  have legible : ∀ line ∈ p.lines tables limits, line.Legible :=
    tidy.legible (Program.formed_of_ofTokens spelled)
  exact ⟨p, tables, checked, legible, splitOnP_textOf fun line mem => (legible line mem).reads.whole⟩

/-- **Comments swallow nothing, but for names that end in a backslash.** The lines of an emitted text
that end in a backslash are the comments of calls of functions, and the lines of memories, whose name
ends so. There is none just if the program calls no such function and has no such memory, and just
then the text is the same to an assembler that joins lines. -/
theorem continued_lines {limits : Limits} {source file asm : String} (whole : Unbroken file)
    (ok : compile limits source file = .ok asm) :
    ∃ p tables, check limits source file = .ok (p, tables)
      ∧ (∀ chars, chars ∈ rawLines asm ∧ Continued chars
        ↔ ∃ line, p.Trailing tables line ∧ line.chars = chars)
      ∧ ((∀ chars ∈ rawLines asm, ¬ Continued chars) ↔ p.Plain tables)
      ∧ (joined (rawLines asm) = rawLines asm ↔ p.Plain tables) := by
  obtain ⟨p, tables, checked, legible, lines⟩ := rawLines_compile whole ok
  have exact : ∀ chars, chars ∈ rawLines asm ∧ Continued chars
      ↔ ∃ line, p.Trailing tables line ∧ line.chars = chars := by
    intro chars
    rw [lines]
    constructor
    · rintro ⟨mem, goes⟩
      rcases List.mem_append.1 mem with mem | mem
      · obtain ⟨line, here, rfl⟩ := List.mem_map.1 mem
        obtain ⟨note, held, ends⟩ := (legible line here).continued_iff.1 goes
        exact ⟨line, Program.trailing_of_mem_lines here held ends, rfl⟩
      · obtain rfl := List.mem_singleton.1 mem
        cases goes
    · rintro ⟨line, trailing, rfl⟩
      obtain ⟨here, note⟩ : line ∈ p.lines tables limits ∧ _ := trailing.mem_lines
      exact ⟨List.mem_append_left _ (List.mem_map_of_mem here),
        (legible line here).continued_iff.2 note⟩
  have none : (∀ chars ∈ rawLines asm, ¬ Continued chars) ↔ p.Plain tables := by
    rw [Program.plain_iff]
    constructor
    · intro none line trailing
      obtain ⟨mem, goes⟩ := (exact line.chars).2 ⟨line, trailing, rfl⟩
      exact none _ mem goes
    · intro none chars mem goes
      obtain ⟨line, trailing, -⟩ := (exact chars).1 ⟨mem, goes⟩
      exact none line trailing
  exact ⟨p, tables, checked, exact, none, joined_eq_self_iff.trans none⟩

/-- A call and a memory with backslashes in their names, in a file whose name ends in one. -/
theorem continued_lines_inside :
    ∃ asm, compile {} "memory m\\n 8 ; : f\\g ( -- ) ; f\\g" "t\\" = .ok asm
      ∧ (∀ chars ∈ rawLines asm, ¬ Continued chars) ∧ joined (rawLines asm) = rawLines asm := by
  obtain ⟨p, tables, checked, holds⟩ :=
    Except.exists_eq_ok (x := check {} "memory m\\n 8 ; : f\\g ( -- ) ; f\\g" "t\\")
      (q := fun r => (r.1.bodies.flatMap fun f => nodesIn f.body).all (fun n =>
          n.remark?.all fun text => !decide (EndsInBackslash text))
        && r.2.regions.all fun r => !decide (EndsInBackslash r.name)) (by decide +kernel)
  rw [Bool.and_eq_true, List.all_eq_true, List.all_eq_true] at holds
  have ok : compile {} "memory m\\n 8 ; : f\\g ( -- ) ; f\\g" "t\\" = .ok (p.asm tables {}) :=
    Except.bind_eq_ok.2 ⟨_, checked, rfl⟩
  obtain ⟨_, _, again, -, none, same⟩ := continued_lines (by decide) ok
  cases checked.symm.trans again
  have plain : p.Plain tables := by
    refine ⟨fun f body c place inside ends => ?_, fun r mem => by simpa using holds.2 r mem⟩
    have held := holds.1 _ (List.mem_flatMap.2 ⟨f, body, inside⟩)
    simp [Node.remark?, endsInBackslash_call_iff.2 ends] at held
  exact ⟨_, ok, none.2 plain, same.2 plain⟩

/-- The comment of a call whose name ends in a backslash takes the first instruction of the call
away. -/
theorem call_swallowed :
    ∃ asm, compile {} ": f\\ ( -- ) ; f\\" "t" = .ok asm
      ∧ ["    ; call f\\".toList, "    mov rax, rsp".toList] <:+: rawLines asm
      ∧ Continued "    ; call f\\".toList ∧ joined (rawLines asm) ≠ rawLines asm := by
  obtain ⟨p, tables, checked, holds⟩ := Except.exists_eq_ok (x := check {} ": f\\ ( -- ) ; f\\" "t")
    (q := fun r => r.1.main.body.map Node.remark? == [some "call f\\"]) (by decide +kernel)
  have ok : compile {} ": f\\ ( -- ) ; f\\" "t" = .ok (p.asm tables {}) :=
    Except.bind_eq_ok.2 ⟨_, checked, rfl⟩
  obtain ⟨_, _, again, -, lines⟩ := rawLines_compile (by decide) ok
  cases checked.symm.trans again
  obtain ⟨n, body, remark⟩ : ∃ n, p.main.body = [n] ∧ n.remark? = some "call f\\" :=
    List.map_eq_singleton_iff.1 (eq_of_beq holds)
  obtain ⟨c, place, rfl, called, -⟩ := Node.call_of_remark? remark (by decide)
  have first : [Line.comment "call f\\", .instr (.movReg .rax .rsp)] <:+: linesOf p.main.body := by
    rw [called]
    exact ⟨[], instrs c.code.tail, by simp [body, linesOf, Node.lines]; rfl⟩
  have inside : linesOf p.main.body <:+: p.lines tables {} :=
    Program.infix_lines (List.mem_append_right _ (List.mem_singleton_self _))
  have stands : ["    ; call f\\".toList, "    mov rax, rsp".toList]
      <:+: rawLines (p.asm tables {}) := by
    have chars := (first.trans inside).map Line.chars
    rw [lines]
    exact chars.trans (List.infix_append' [] _ [[]])
  have goes : Continued "    ; call f\\".toList := by decide +kernel
  refine ⟨_, ok, stands, goes, fun same => ?_⟩
  exact joined_eq_self_iff.1 same _ (stands.mem (List.mem_cons_self ..)) goes

end PinnedStack
