import PinnedStack.Proofs.Text.Closed

/-!
# The data section is read back

* `sectionIn` — the lines of a section, those behind the last line that starts it.
* `byteIn?`, `bytesIn?`, `dataIn?` — a number, the operand of `db`, and a line of data.
* `dataIn` — the labels that a text puts bytes behind, with the bytes.
* `bytesIn?_bytesText` — the bytes of a literal are read back; `stored` are those that there are.
* `Program.dataIn_asm` — what is read of a program are its literals, whatever its file is called.
-/

namespace PinnedStack

open Asm

/-! ## Reading -/

namespace Asm

/-- The lines behind the last line that starts a section, up to the next section. -/
def sectionIn (name text : String) : List (List Char) :=
  let opener := "section ".toList ++ name.toList
  let parts := (text.toList.splitOnP (· == '\n')).splitOnP (· == opener)
  (parts.tail.getLast?.getD []).takeWhile fun line => !"section ".toList.isPrefixOf line

/-- The byte that a decimal number gives. -/
def byteIn? (digits : List Char) : Option UInt8 :=
  let n := Nat.ofDigitChars 10 digits 0
  if digits ≠ [] ∧ digits.all Char.isDigit ∧ n < 256 then some (UInt8.ofNat n) else none

/-- The bytes that numbers between commas give. -/
def bytesIn? (operand : List Char) : Option (List UInt8) :=
  (operand.splitOnP (· == ',')).mapM fun part => byteIn? (part.dropWhile (· == ' '))

/-- The label and the bytes of a line of data. -/
def dataIn? (line : List Char) : Option (String × List UInt8) :=
  let label := line.takeWhile (· != ':')
  match ": db ".toList.isPrefixOf? (line.dropWhile (· != ':')) with
  | some operand => (bytesIn? operand).map (String.ofList label, ·)
  | none => none

/-- The labels that the section `.rodata` of a text puts bytes behind, with the bytes. -/
def dataIn (text : String) : List (String × List UInt8) :=
  (sectionIn ".rodata" text).filterMap dataIn?

example : dataIn "a: db 1\nsection .rodata\nb: db 0, 255\n\nc: db 256\nsection .bss\nd: db 3\n"
    = [("b", [0, 255])] := by decide +kernel

/-! ## Numbers -/

theorem byteIn?_toString (b : UInt8) : byteIn? (toString b.toNat).toList = some b := by
  have digits : ∀ c ∈ Nat.toDigits 10 b.toNat, c.isDigit = true :=
    fun c mem => Nat.isDigit_of_mem_toDigits (by decide) (by decide) mem
  have value : Nat.ofDigitChars 10 (Nat.toDigits 10 b.toNat) 0 = b.toNat :=
    Nat.ofDigitChars_toDigits (by decide) (by decide)
  rw [Nat.toString_eq_repr, Nat.toList_repr, byteIn?, value,
    if_pos ⟨Nat.toDigits_ne_nil, List.all_eq_true.2 digits, b.toNat_lt⟩, UInt8.ofNat_toNat]

theorem head_toString (n : Nat) : (toString n).toList.head? ≠ some ' ' := by
  intro blank
  exact not_mem_repr (c := ' ') rfl n (List.mem_of_mem_head? blank)

theorem bytesIn?_cons_blank (chars : List Char) : bytesIn? (' ' :: chars) = bytesIn? chars := by
  have others : (' ' == ',') = false := by decide
  cases parts : chars.splitOnP (· == ',') with
  | nil => exact absurd parts (List.splitOnP_ne_nil _ _)
  | cons part more =>
    simp [bytesIn?, List.splitOnP_cons_eq_if_modifyHead, parts, others]

theorem bytesIn?_of_not_mem {chars : List Char} (apart : ',' ∉ chars) :
    bytesIn? chars = (byteIn? (chars.dropWhile (· == ' '))).map ([·]) := by
  have none : ∀ c ∈ chars, (c == ',') = false :=
    fun c mem => beq_eq_false_iff_ne.2 fun eq => apart (eq ▸ mem)
  rw [bytesIn?, List.splitOnP_eq_singleton none, List.mapM_cons, List.mapM_nil]
  cases byteIn? (chars.dropWhile (· == ' ')) <;> rfl

theorem bytesIn?_append_comma {chars : List Char} (apart : ',' ∉ chars) (rest : List Char) :
    bytesIn? (chars ++ ',' :: rest)
      = (byteIn? (chars.dropWhile (· == ' '))).bind fun b => (bytesIn? rest).map (b :: ·) := by
  have none : ∀ c ∈ chars, (c == ',') = false :=
    fun c mem => beq_eq_false_iff_ne.2 fun eq => apart (eq ▸ mem)
  rw [bytesIn?, List.splitOnP_append_cons _ _ (by rfl), List.splitOnP_eq_singleton none,
    List.singleton_append, List.mapM_cons]
  cases byteIn? (chars.dropWhile (· == ' ')) with
  | none => rfl
  | some b =>
    show (bytesIn? rest >>= fun bs => some (b :: bs)) = _
    cases bytesIn? rest <;> rfl

/-- What is stored of a literal: at least one byte. -/
def stored (bytes : List UInt8) : List UInt8 := if bytes = [] then [0] else bytes

/-- **The operand of `db` reads back as the bytes that are stored.** -/
theorem bytesIn?_bytesText (bytes : List UInt8) :
    bytesIn? (Line.bytesText bytes).toList = some (stored bytes) := by
  by_cases empty : bytes = []
  · subst empty
    decide +kernel
  rw [stored, if_neg empty]
  have listed : Line.bytesText bytes = ", ".intercalate (bytes.map fun b => toString b.toNat) := by
    simp [Line.bytesText, empty]
  rw [listed]
  clear listed
  induction bytes with
  | nil => exact absurd rfl empty
  | cons b bytes ih =>
    have number : ',' ∉ (toString b.toNat).toList := not_mem_repr rfl _
    have whole : (toString b.toNat).toList.dropWhile (· == ' ') = (toString b.toNat).toList := by
      cases spelled : (toString b.toNat).toList with
      | nil => rfl
      | cons c cs =>
        have first : c ≠ ' ' := fun eq => head_toString b.toNat (by rw [spelled, eq]; rfl)
        simp [first]
    cases bytes with
    | nil =>
      rw [List.map_singleton, String.intercalate_singleton, bytesIn?_of_not_mem number, whole,
        byteIn?_toString]
      rfl
    | cons next bytes =>
      have spelled : (", ".intercalate ((b :: next :: bytes).map fun b => toString b.toNat)).toList
          = (toString b.toNat).toList ++ ',' :: ' ' ::
            (", ".intercalate ((next :: bytes).map fun b => toString b.toNat)).toList := by
        rw [List.map_cons, String.intercalate_cons_of_ne_nil (by simp), String.toList_append,
          String.toList_append, List.append_assoc]
        rfl
      rw [spelled, bytesIn?_append_comma number, whole, byteIn?_toString, bytesIn?_cons_blank,
        ih (by simp)]
      rfl

end Asm

/-! ## Lines of data -/

theorem Asm.toList_bytes (label : String) (bytes : List UInt8) :
    (Line.bytes label bytes).chars
      = label.toList ++ ':' :: (" db ".toList ++ (Line.bytesText bytes).toList) := by
  simp [Line.chars, Line.row, Row.chars]
  rfl

theorem Asm.Legible.span {label : String} (legible : Legible label) (rest : List Char) :
    (label.toList ++ ':' :: rest).takeWhile (· != ':') = label.toList
      ∧ (label.toList ++ ':' :: rest).dropWhile (· != ':') = ':' :: rest := by
  have apart : ∀ c ∈ label.toList, (c != ':') = true := fun c mem =>
    bne_iff_ne.2 (isNameChar_ne (List.all_eq_true.1 legible.chars c mem) rfl)
  rw [List.takeWhile_append_of_pos apart, List.dropWhile_append_of_pos apart]
  simp

/-- **A line of data is read back.** -/
theorem Asm.dataIn?_bytes {label : String} (legible : Legible label) (bytes : List UInt8) :
    dataIn? (Line.bytes label bytes).chars = some (label, stored bytes) := by
  obtain ⟨front, behind⟩ := legible.span (" db ".toList ++ (Line.bytesText bytes).toList)
  have operand : ": db ".toList.isPrefixOf?
      (':' :: (" db ".toList ++ (Line.bytesText bytes).toList))
        = some (Line.bytesText bytes).toList := by
    simp [List.isPrefixOf?]
  simp only [toList_bytes, dataIn?, front, behind]
  rw [operand]
  simp [bytesIn?_bytesText]

/-! ## The section -/

/-- The lines of a section that is followed by another one are read back, whatever stands in front of
it. -/
theorem Asm.sectionIn_textOf {name other : String} (front : List Line) {inner rest : List Line}
    (whole : ∀ line ∈ .sectionStart name :: (inner ++ .sectionStart other :: rest),
      '\n' ∉ line.chars)
    (inside : ∀ line ∈ inner, "section ".toList.isPrefixOf line.chars = false)
    (once : ∀ line ∈ inner ++ .sectionStart other :: rest,
      line.chars ≠ (Line.sectionStart name).chars) :
    sectionIn name (textOf (front ++ .blank ::
      .sectionStart name :: (inner ++ .sectionStart other :: rest))) = inner.map Line.chars := by
  have opener : ∀ name, (Line.sectionStart name).chars = "section ".toList ++ name.toList :=
    fun name => String.toList_append
  have starts : "section ".toList.isPrefixOf (Line.sectionStart other).chars = true := by
    rw [opener, List.isPrefixOf_iff_prefix]
    exact List.prefix_append _ _
  have spelled : (textOf (front ++ .blank ::
      .sectionStart name :: (inner ++ .sectionStart other :: rest))).toList
        = (textOf front).toList ++ '\n' ::
          (textOf (.sectionStart name :: (inner ++ .sectionStart other :: rest))).toList := by
    rw [textOf_append, String.toList_append]
    congr 1
    rw [← List.singleton_append, textOf_append, String.toList_append]
    rfl
  have none : ∀ chars ∈ (inner ++ .sectionStart other :: rest).map Line.chars ++ [[]],
      (chars == (Line.sectionStart name).chars) = false := by
    intro chars mem
    rw [beq_eq_false_iff_ne]
    rcases List.mem_append.1 mem with mem | mem
    · obtain ⟨line, held, rfl⟩ := List.mem_map.1 mem
      exact once line held
    · obtain rfl := List.mem_singleton.1 mem
      rw [opener]
      exact nofun
  rw [sectionIn, spelled, List.splitOnP_append_cons _ _ (by rfl), splitOnP_textOf whole,
    List.map_cons, List.cons_append, ← opener, List.splitOnP_append_cons _ _ (by simp),
    List.splitOnP_eq_singleton none, List.tail_append_of_ne_nil (List.splitOnP_ne_nil _ _),
    List.getLast?_concat, Option.getD_some, List.map_append, List.append_assoc,
    List.takeWhile_append_of_pos, List.map_cons, List.cons_append, List.takeWhile_cons_of_neg,
    List.append_nil]
  · rw [starts]
    exact nofun
  · intro chars mem
    obtain ⟨line, held, rfl⟩ := List.mem_map.1 mem
    rw [inside line held]
    rfl

section Programs

variable {p : Program} {tables : Tables} {limits : Limits} {line : Line}

theorem Tables.legible_of_mem (named : ∀ r ∈ tables.regions, Unbroken r.name)
    (mem : line ∈ tables.literalLines ++ tables.spaceLines limits) : line.Legible := by
  have labels : ∀ l ∈ definesOf (tables.literalLines ++ tables.spaceLines limits), Legible l := by
    rw [definesOf_append, definesOf_literalLines, definesOf_spaceLines]
    have space : ∀ l ∈ spaceLabels ++ ["ret_stack_end"], Legible l := by decide +kernel
    simp only [List.forall_mem_append, List.forall_mem_cons] at space ⊢
    exact ⟨legible_of_mem_map toList_literalLabel (by decide) (by decide) rfl, space.1, space.2.1,
      legible_of_mem_map toList_regionLabel (by decide) (by decide) rfl⟩
  have tidy : line.Tidy :=
    (List.mem_append.1 mem).elim (tidy_literalLines line) (tidy_spaceLines named line)
  have quiet := tables.no_code limits (List.mem_append.1 mem)
  refine tidy.legible (fun l defines => labels l (mem_definesOf.2 ⟨line, mem, defines⟩)) ?_ ?_
  · cases line with
    | instr i => exact absurd rfl (quiet i)
    | _ => exact List.forall_mem_nil _
  · rw [Line.operands_eq_nil quiet]
    exact List.forall_mem_nil _

theorem Asm.chars_of_defines {name : String} (defines : line.defines? = some name) :
    ∃ rest, line.chars = name.toList ++ ':' :: rest := by
  cases line with
  | label =>
    cases defines
    exact ⟨[], rfl⟩
  | bytes _ values =>
    cases defines
    exact ⟨_, toList_bytes name values⟩
  | reserve _ space count note =>
    cases defines
    cases note with
    | none =>
      refine ⟨' ' :: (space.text.toList ++ ' ' :: count.repr.toList), ?_⟩
      simp [Line.chars, Line.row, Row.chars]
      rfl
    | some text =>
      refine ⟨' ' :: (space.text.toList ++ ' ' :: (count.repr.toList ++ " ; ".toList
        ++ text.toList)), ?_⟩
      simp [Line.chars, Line.row, Row.chars]
      rfl
  | _ => cases defines

/-- The label that a legible line defines is read back. -/
theorem Asm.Line.Legible.of_defines {name : String} (legible : line.Legible)
    (defines : line.defines? = some name) : Asm.Legible name := by
  cases line with
  | label | bytes =>
    cases defines
    exact legible
  | reserve =>
    cases defines
    exact legible.1
  | _ => cases defines

theorem Asm.Line.Legible.not_section (legible : line.Legible) (defines : line.defines?.isSome) :
    "section ".toList.isPrefixOf line.chars = false := by
  obtain ⟨name, defines⟩ := Option.isSome_iff_exists.1 defines
  have named := legible.of_defines defines
  obtain ⟨rest, spelled⟩ := chars_of_defines defines
  rw [Bool.eq_false_iff, ne_eq, List.isPrefixOf_iff_prefix, spelled]
  rintro ⟨behind, same⟩
  have front := (named.span rest).1
  rw [← same, List.takeWhile_append_of_pos (List.all_eq_true.1 (by decide))] at front
  exact named.not_mem (c := ' ') rfl (front ▸ List.mem_append_left _ (by decide))

/-- Behind the head of its section each line of space defines a label. -/
theorem Tables.exists_spaceLines (tables : Tables) (limits : Limits) :
    ∃ rest, tables.spaceLines limits = .blank :: .sectionStart ".bss" :: rest
      ∧ ∀ line ∈ rest, line.defines?.isSome := by
  refine ⟨_, rfl, List.forall_mem_append.2 ⟨?_, fun line mem => ?_⟩⟩
  · simp [Line.defines?]
  · obtain ⟨e, -, rfl⟩ := List.mem_map.1 mem
    rfl

/-- **What is read of a program's data are its literals, each behind its label.** The file may have
any name. -/
theorem Program.dataIn_asm {source file : String}
    (ok : Program.ofText limits source file = .ok (p, tables)) :
    dataIn (p.asm tables limits)
      = tables.labelledLiterals.map fun (label, bytes) => (label, stored bytes) := by
  obtain ⟨code, lines, -⟩ := p.exists_code tables limits
  obtain ⟨rest, space, labelled⟩ := tables.exists_spaceLines limits
  let data := tables.labelledLiterals.map fun (label, bytes) => Line.bytes label bytes
  let behind := (data ++ [Line.blank]) ++ .sectionStart ".bss" :: rest
  have whole : tables.literalLines ++ tables.spaceLines limits
      = .blank :: .sectionStart ".rodata" :: behind := by
    rw [space]
    simp [Tables.literalLines, data, behind]
  have legible : ∀ line ∈ Line.sectionStart ".rodata" :: behind, line.Legible := fun line mem =>
    Tables.legible_of_mem (unbroken_regions ok) (whole ▸ List.mem_cons_of_mem _ mem)
  have plain : ∀ line ∈ behind, line.defines?.isSome →
      "section ".toList.isPrefixOf line.chars = false :=
    fun line mem => (legible line (List.mem_cons_of_mem _ mem)).not_section
  have entry : ∀ line ∈ data, ∃ label bytes, line = .bytes label bytes := by
    intro line mem
    obtain ⟨⟨label, bytes⟩, -, rfl⟩ := List.mem_map.1 mem
    exact ⟨label, bytes, rfl⟩
  have inner : sectionIn ".rodata" (p.asm tables limits) = (data ++ [Line.blank]).map Line.chars := by
    rw [Program.asm, lines, List.append_assoc, whole]
    refine sectionIn_textOf code (fun line mem => (legible line mem).reads.whole) ?_ ?_
    · refine List.forall_mem_append.2 ⟨fun line mem => ?_, by decide⟩
      obtain ⟨label, bytes, rfl⟩ := entry line mem
      exact plain _ (List.mem_append_left _ (List.mem_append_left _ mem)) rfl
    · have other : ∀ line ∈ behind, line.defines?.isSome →
          line.chars ≠ (Line.sectionStart ".rodata").chars := by
        intro line mem defines same
        have apart := plain line mem defines
        rw [same] at apart
        cases apart
      intro line mem
      rcases List.mem_append.1 mem with inside | outside
      · rcases List.mem_append.1 inside with held | last
        · obtain ⟨label, bytes, rfl⟩ := entry line held
          exact other _ mem rfl
        · obtain rfl := List.mem_singleton.1 last
          exact fun same => by cases same
      · rcases List.mem_cons.1 outside with rfl | held
        · decide
        · exact other line mem (labelled line held)
  have each : ∀ e ∈ tables.labelledLiterals,
      dataIn? (Line.bytes e.1 e.2).chars = some (e.1, stored e.2) := by
    rintro ⟨label, bytes⟩ mem
    have held : Line.bytes label bytes ∈ behind :=
      List.mem_append_left _ (List.mem_append_left _ (List.mem_map_of_mem mem))
    exact dataIn?_bytes (legible _ (List.mem_cons_of_mem _ held)) bytes
  have last : dataIn? Line.blank.chars = none := by decide
  calc
    dataIn (p.asm tables limits) = data.filterMap (dataIn? ·.chars) := by
      simp [dataIn, inner, last]
    _ = tables.labelledLiterals.filterMap fun e => some (e.1, stored e.2) := by
      rw [List.filterMap_map]
      exact List.filterMap_congr each
    _ = _ := congrFun List.filterMap_eq_map' _

end Programs

end PinnedStack
