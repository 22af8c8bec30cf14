import PinnedStack.Proofs.Text.Names
import PinnedStack.Proofs.Typing.Balance
import PinnedStack.Proofs.Typing.Frame

/-!
# Comparing two stacks

What the verdict and the report of `Shape.diff` say.

* `Shape.MatchAt` — both stacks hold a word at a position, and the two match.
* `Shape.verdict_eq_equal`, `Shape.verdict_eq_sizeDifference`, `Shape.verdict_eq_typeDifference` — the
  verdicts; `Shape.verdict_comm` — they do not depend on the order of the stacks.
* `Shape.diff_eq_walk` — one pass over the positions that fills the report and lowers the verdict
  comes to the same; a difference of size, once found, stays.
* `Shape.markedLine`, `Shape.splitOnP_report` — the lines of the report and their marks.
* `Shape.diff_decides` — all of this, and that stacks without unknown words that compare equal are
  classes of an equivalence that keeps the number of words and their kinds.
-/

namespace PinnedStack

/-! ## Types -/

/-- The names of the records in a type. -/
def Ty.recordNames : Ty → List String
  | word _ => []
  | pointerTo target => target.recordNames
  | record r => [r.name]

theorem Ty.unbroken_text {t : Ty} (names : ∀ name ∈ t.recordNames, Unbroken name) :
    Unbroken t.text := by
  induction t with
  | word kind => cases kind <;> decide
  | pointerTo target ih => exact Unbroken.append (a := "*") (by decide) (ih names)
  | record r => exact names r.name (List.mem_singleton_self _)

namespace Shape

variable {a b c : Shape}

/-! ## Positions -/

/-- What two stacks hold at a position, counted from the bottom. -/
def wordsAt (a b : Shape) (i : Nat) : Option Cell × Option Cell :=
  (a.bottomFirst[i]?, b.bottomFirst[i]?)

/-- Both stacks hold a word at a position, and the two match. -/
def MatchAt (a b : Shape) (i : Nat) : Prop :=
  ∃ l r, a.bottomFirst[i]? = some l ∧ b.bottomFirst[i]? = some r ∧ l.ty.fits r.ty = true

theorem MatchAt.symm {i : Nat} (h : a.MatchAt b i) : b.MatchAt a i := by
  obtain ⟨l, r, left, right, fits⟩ := h
  exact ⟨r, l, right, left, (Ty.fits_comm _ _).trans fits⟩

theorem length_bottomFirst (s : Shape) : s.bottomFirst.length = s.size := by
  simp [bottomFirst, size]

theorem agree_iff_matchAt {i : Nat} : agree (a.wordsAt b i) = true ↔ a.MatchAt b i := by
  unfold MatchAt wordsAt
  cases a.bottomFirst[i]? with
  | none => simp [agree]
  | some l =>
    cases b.bottomFirst[i]? with
    | none => simp [agree]
    | some r => simp [agree]

theorem length_pairs (a b : Shape) : (a.pairs b).length = max a.size b.size := by
  have lists : ∀ xs ys : List Cell,
      (List.zipWithAll Prod.mk xs ys).length = max xs.length ys.length := by
    intro xs
    induction xs with
    | nil => simp
    | cons x xs ih =>
      intro ys
      cases ys with
      | nil => simp
      | cons y ys =>
        rw [List.zipWithAll_cons_cons, List.length_cons, ih, List.length_cons, List.length_cons]
        omega
  rw [pairs, lists, length_bottomFirst, length_bottomFirst]

theorem getElem?_pairs {i : Nat} (inside : i < max a.size b.size) :
    (a.pairs b)[i]? = some (a.wordsAt b i) := by
  have held : i < a.bottomFirst.length ∨ i < b.bottomFirst.length := by
    rw [length_bottomFirst, length_bottomFirst]
    omega
  rw [pairs, List.getElem?_zipWithAll]
  split
  · rename_i left right
    rw [List.getElem?_eq_none_iff] at left right
    omega
  · rfl

/-! ## Verdicts -/

/-- Stacks match where they are equally high and match at each position. -/
theorem matches_iff_matchAt : a.Matches b ↔ a.size = b.size ∧ ∀ i < a.size, a.MatchAt b i := by
  rw [Matches, ← List.forall₂_reverse_iff]
  change List.Forall₂ _ a.bottomFirst b.bottomFirst ↔ _
  rw [List.forall₂_iff_get, ← length_bottomFirst, ← length_bottomFirst]
  refine and_congr_right fun heights => ⟨fun all i inside => ?_, fun all i inside other => ?_⟩
  · have other : i < b.bottomFirst.length := heights ▸ inside
    exact ⟨_, _, List.getElem?_eq_getElem inside, List.getElem?_eq_getElem other, all i inside other⟩
  · obtain ⟨l, r, left, right, fits⟩ := all i inside
    obtain ⟨_, rfl⟩ := List.getElem?_eq_some_iff.1 left
    obtain ⟨_, rfl⟩ := List.getElem?_eq_some_iff.1 right
    exact fits

theorem verdict_eq_equal : (a.diff b).verdict = .equal ↔ a.Matches b := by
  rw [← isEqual_diff, Diff.isEqual, beq_iff_eq]

theorem verdict_eq_sizeDifference :
    (a.diff b).verdict = .sizeDifference ↔ a.size ≠ b.size := by
  unfold diff
  simp only
  split
  · rename_i same
    split <;> simp [same]
  · rename_i other
    simp [other]

theorem verdict_eq_typeDifference :
    (a.diff b).verdict = .typeDifference ↔ a.size = b.size ∧ ∃ i < a.size, ¬ a.MatchAt b i := by
  have equal := verdict_eq_equal.trans (matches_iff_matchAt (a := a) (b := b))
  have size := verdict_eq_sizeDifference (a := a) (b := b)
  cases verdict : (a.diff b).verdict with
  | equal =>
    obtain ⟨-, all⟩ := equal.1 verdict
    simp only [reduceCtorEq, false_iff]
    rintro ⟨-, i, inside, other⟩
    exact other (all i inside)
  | sizeDifference =>
    simp only [reduceCtorEq, false_iff]
    exact fun h => size.1 verdict h.1
  | typeDifference =>
    rw [verdict] at equal size
    simp only [reduceCtorEq, false_iff, not_and, not_not, not_forall, true_iff] at equal size ⊢
    obtain ⟨i, inside, other⟩ := equal size
    exact ⟨size, i, inside, other⟩

theorem verdict_comm (a b : Shape) : (a.diff b).verdict = (b.diff a).verdict := by
  cases verdict : (b.diff a).verdict with
  | equal => exact verdict_eq_equal.2 (verdict_eq_equal.1 verdict).symm
  | sizeDifference => exact verdict_eq_sizeDifference.2 (verdict_eq_sizeDifference.1 verdict).symm
  | typeDifference =>
    obtain ⟨size, i, inside, other⟩ := verdict_eq_typeDifference.1 verdict
    exact verdict_eq_typeDifference.2 ⟨size.symm, i, size ▸ inside, fun h => other h.symm⟩

/-! ## One pass over the positions -/

/-- One position more: its line is added to the report, and where it does not match, stacks that were
equal so far are not. A difference of size stays. -/
def Diff.next (d : Diff) (row : (Option Cell × Option Cell) × Nat) : Diff :=
  ⟨if agree row.1 = false ∧ d.verdict = .equal then .typeDifference else d.verdict,
    d.report ++ reportLine row.2 row.1⟩

theorem foldl_next (rows : List ((Option Cell × Option Cell) × Nat)) (d : Diff) :
    rows.foldl Diff.next d
      = ⟨if rows.all (agree ·.1) = false ∧ d.verdict = .equal then .typeDifference else d.verdict,
          d.report ++ String.join (rows.map fun (p, i) => reportLine i p)⟩ := by
  induction rows generalizing d with
  | nil => simp
  | cons row rows ih =>
    rw [List.foldl_cons, ih, Diff.next, List.map_cons, List.all_cons, String.join_cons,
      String.append_assoc]
    congr 1
    cases agree row.1 with
    | true => rfl
    | false => cases d.verdict <;> simp

/-- **The verdict and the report are those of one pass over the positions.** It starts from what the
sizes tell. -/
theorem diff_eq_walk (a b : Shape) :
    a.diff b = (a.pairs b).zipIdx.foldl Diff.next
      ⟨if a.size = b.size then .equal else .sizeDifference, ""⟩ := by
  have all : (a.pairs b).zipIdx.all (agree ·.1) = (a.pairs b).all agree := by
    change (a.pairs b).zipIdx.all (agree ∘ Prod.fst) = _
    rw [← List.all_map, List.zipIdx_map_fst]
  rw [foldl_next, all, String.empty_append, diff]
  congr 1
  by_cases size : a.size = b.size
  · cases (a.pairs b).all agree <;> simp [size]
  · simp [size]

/-! ## The report -/

/-- A line of a report, with a mark between the words of a position. -/
def markedLine (mark : String) (i : Nat) (p : Option Cell × Option Cell) : String :=
  s!"  [{i}] {padded 32 (describe p.1)} {mark} {describe p.2}"

theorem toList_markedLine (mark : String) (i : Nat) (p : Option Cell × Option Cell) :
    (markedLine mark i p).toList
      = s!"  [{i}] {padded 32 (describe p.1)} ".toList
        ++ (mark.toList ++ s!" {describe p.2}".toList) := by
  simp [markedLine]
  rfl

theorem markedLine_inj {mark other : String} {i : Nat} {p : Option Cell × Option Cell}
    (same : (markedLine mark i p).toList = (markedLine other i p).toList) : mark = other := by
  rw [toList_markedLine, toList_markedLine, List.append_cancel_left_eq,
    List.append_cancel_right_eq] at same
  exact String.toList_inj.1 same

/-- The mark of a position. -/
def markOf (p : Option Cell × Option Cell) : String := if agree p then "==" else "!="

theorem toList_reportLine (i : Nat) (p : Option Cell × Option Cell) :
    (reportLine i p).toList = (markedLine (markOf p) i p).toList ++ ['\n'] := by
  simp [reportLine, markedLine, markOf]
  rfl

/-- No file and no record has a line feed in its name. -/
def OneLine (s : Shape) : Prop :=
  ∀ c ∈ s.cells, Unbroken c.origin.file ∧ ∀ name ∈ c.ty.recordNames, Unbroken name

instance (s : Shape) : Decidable s.OneLine :=
  inferInstanceAs (Decidable (∀ c ∈ s.cells, Unbroken c.origin.file
    ∧ ∀ name ∈ c.ty.recordNames, Unbroken name))

theorem OneLine.unbroken_describe {s : Shape} (whole : s.OneLine) (i : Nat) :
    Unbroken (describe s.bottomFirst[i]?) := by
  cases here : s.bottomFirst[i]? with
  | none => decide
  | some c =>
    have mem : c ∈ s.cells := List.mem_reverse.1 (List.mem_of_getElem? here)
    obtain ⟨file, names⟩ := whole c mem
    exact (((Ty.unbroken_text names).append (b := " (") (by decide)).append
      (Place.unbroken_text file)).append (b := ")") (by decide)

theorem unbroken_padded {text : String} (h : Unbroken text) (width : Nat) :
    Unbroken (padded width text) := by
  rw [padded, String.pushn_eq_repeat_push]
  induction width - text.length with
  | zero => exact h
  | succ n ih => exact Unbroken.append (b := " ") ih (by decide)

theorem unbroken_markedLine (wholeA : a.OneLine) (wholeB : b.OneLine) (i : Nat) :
    Unbroken (markedLine (markOf (a.wordsAt b i)) i (a.wordsAt b i)) := by
  have front : Unbroken s!"  [{i}] " :=
    ((Unbroken.append (a := "  [") (by decide) (unbroken_repr i)).append (b := "] ") (by decide))
  have left := unbroken_padded (wholeA.unbroken_describe i) 32
  have mark : Unbroken (markOf (a.wordsAt b i)) := by
    unfold markOf
    split <;> decide
  exact ((((front.append left).append (b := " ") (by decide)).append mark).append (b := " ")
    (by decide)).append (wholeB.unbroken_describe i)

/-- The lines of a report are those of the positions, and an empty one behind the last line feed. -/
theorem splitOnP_report (wholeA : a.OneLine) (wholeB : b.OneLine) :
    ∃ lines : List (List Char), (a.diff b).report.toList.splitOnP (· == '\n') = lines ++ [[]]
      ∧ lines.length = max a.size b.size
      ∧ ∀ i < max a.size b.size,
          lines[i]? = some (markedLine (markOf (a.wordsAt b i)) i (a.wordsAt b i)).toList := by
  let lines := (a.pairs b).zipIdx.map fun (p, i) => (markedLine (markOf p) i p).toList
  have count : lines.length = max a.size b.size := by
    rw [List.length_map, List.length_zipIdx, length_pairs]
  have each : ∀ i < max a.size b.size,
      lines[i]? = some (markedLine (markOf (a.wordsAt b i)) i (a.wordsAt b i)).toList := by
    intro i inside
    simp [lines, List.getElem?_zipIdx, getElem?_pairs inside]
  have spelled : (a.diff b).report.toList = lines.flatMap (· ++ ['\n']) := by
    simp only [diff, lines, String.toList_join, List.flatMap_map, toList_reportLine]
  have whole : ∀ line ∈ lines, '\n' ∉ line := by
    intro line mem
    obtain ⟨i, here⟩ := List.mem_iff_getElem?.1 mem
    obtain ⟨inside, -⟩ := List.getElem?_eq_some_iff.1 here
    rw [count] at inside
    obtain rfl := Option.some.inj ((each i inside).symm.trans here)
    exact unbroken_markedLine wholeA wholeB i
  refine ⟨lines, ?_, count, each⟩
  rw [spelled]
  exact splitOnP_terminated whole

/-! ## Stacks of one shape -/

theorem Matches.refl (known : a.Known) : a.Matches a :=
  List.forall₂_same.2 fun c mem => Ty.fits_self (known c mem)

theorem Matches.trans (first : a.Matches b) (second : b.Matches c) : a.Matches c :=
  first.of_alike second.alike

theorem Matches.kinds_eq (h : a.Matches b) :
    a.bottomFirst.map (·.ty.kind?) = b.bottomFirst.map (·.ty.kind?) := by
  have kinds : List.Forall₂ (· = ·) (a.cells.map (·.ty.kind?)) (b.cells.map (·.ty.kind?)) := by
    rw [List.forall₂_map_left_iff, List.forall₂_map_right_iff]
    exact h.imp fun _ _ fits => (Ty.Alike.of_fits fits).kind?_eq
  rw [List.forall₂_eq_eq_eq] at kinds
  rw [bottomFirst, bottomFirst, List.map_reverse, List.map_reverse, kinds]

/-- **Comparing two stacks decides whether they are of one shape.** The verdict tells whether they are
equally high and match at each position; the report has a line for each position of the higher one,
marked `==` where both hold a word and the two match; the order of the stacks does not matter for the
verdict, and among stacks without unknown words those that compare equal form classes, within which
the number of words and their kinds are the same. -/
theorem diff_decides (a b : Shape) :
    ((a.diff b).verdict = .sizeDifference ↔ a.size ≠ b.size)
      ∧ ((a.diff b).verdict = .equal ↔ a.size = b.size ∧ ∀ i < a.size, a.MatchAt b i)
      ∧ ((a.diff b).verdict = .typeDifference
          ↔ a.size = b.size ∧ ∃ i < a.size, ¬ a.MatchAt b i)
      ∧ (a.OneLine → b.OneLine → ∃ lines : List (List Char),
          (a.diff b).report.toList.splitOnP (· == '\n') = lines ++ [[]]
            ∧ lines.length = max a.size b.size
            ∧ ∀ i line, lines[i]? = some line →
                (line = (markedLine "==" i (a.wordsAt b i)).toList ↔ a.MatchAt b i)
                ∧ (line = (markedLine "!=" i (a.wordsAt b i)).toList ↔ ¬ a.MatchAt b i))
      ∧ (a.diff b).verdict = (b.diff a).verdict
      ∧ (Equivalence fun s t : {s : Shape // s.Known} => (s.1.diff t.1).verdict = .equal)
      ∧ ((a.diff b).verdict = .equal →
          a.size = b.size ∧ a.bottomFirst.map (·.ty.kind?) = b.bottomFirst.map (·.ty.kind?)) := by
  refine ⟨verdict_eq_sizeDifference, verdict_eq_equal.trans matches_iff_matchAt,
    verdict_eq_typeDifference, fun wholeA wholeB => ?_, verdict_comm a b, ⟨?_, ?_, ?_⟩, ?_⟩
  · obtain ⟨lines, split, count, each⟩ := splitOnP_report wholeA wholeB
    refine ⟨lines, split, count, fun i line here => ?_⟩
    obtain ⟨inside, -⟩ := List.getElem?_eq_some_iff.1 here
    obtain rfl := Option.some.inj ((each i (count ▸ inside)).symm.trans here)
    have marks : ∀ mark, (markedLine (markOf (a.wordsAt b i)) i (a.wordsAt b i)).toList
        = (markedLine mark i (a.wordsAt b i)).toList ↔ markOf (a.wordsAt b i) = mark :=
      fun mark => ⟨markedLine_inj, fun same => by rw [same]⟩
    rw [marks, marks, ← agree_iff_matchAt]
    unfold markOf
    cases agree (a.wordsAt b i) <;> decide
  · exact fun s => verdict_eq_equal.2 (.refl s.2)
  · exact fun same => verdict_eq_equal.2 (verdict_eq_equal.1 same).symm
  · exact fun first second =>
      verdict_eq_equal.2 ((verdict_eq_equal.1 first).trans (verdict_eq_equal.1 second))
  · intro same
    have matching := verdict_eq_equal.1 same
    exact ⟨matching.size_eq, matching.kinds_eq⟩

/-- An unknown word does not match itself. -/
example : ((⟨[⟨.unknown, .builtin⟩]⟩ : Shape).diff ⟨[⟨.unknown, .builtin⟩]⟩).verdict
    = .typeDifference := by decide +kernel

/-- A string below a number. -/
def stringAndNumber : Shape := ofTys [.str, .number] ⟨1, 1, "t"⟩

/-- The words of a string match, whatever its address is known to lead to; the number on the other
stack has no counterpart. -/
theorem diff_decides_higher :
    typedString.OneLine ∧ stringAndNumber.OneLine
      ∧ (typedString.diff stringAndNumber).verdict = .sizeDifference
      ∧ ∃ lines : List (List Char),
          (typedString.diff stringAndNumber).report.toList.splitOnP (· == '\n') = lines ++ [[]]
            ∧ lines.length = 3
            ∧ lines[1]? = some (markedLine "==" 1 (typedString.wordsAt stringAndNumber 1)).toList
            ∧ lines[2]? = some (markedLine "!=" 2 (typedString.wordsAt stringAndNumber 2)).toList := by
  have left : typedString.OneLine := by decide +kernel
  have right : stringAndNumber.OneLine := by decide +kernel
  obtain ⟨size, -, -, report, -⟩ := diff_decides typedString stringAndNumber
  obtain ⟨lines, split, count, marks⟩ := report left right
  have three : lines.length = 3 := count
  refine ⟨left, right, size.2 (by decide), lines, split, three, ?_, ?_⟩
  · have here : lines[1]? = some lines[1] := List.getElem?_eq_getElem _
    rw [here, (marks 1 _ here).1.2 ⟨_, _, rfl, rfl, rfl⟩]
  · have here : lines[2]? = some lines[2] := List.getElem?_eq_getElem _
    rw [here, (marks 2 _ here).2.2 (by rintro ⟨l, r, absent, -⟩; cases absent)]

end Shape

end PinnedStack
