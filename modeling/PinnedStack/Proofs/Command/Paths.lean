import Mathlib.Data.List.TakeWhile
import Mathlib.Data.String.Basic
import PinnedStack.Command.Path

/-!
# The last names of paths

* `Path.lastPiece` — what follows the last slash. `Path.splitOn_slash` — it is the last piece that a
  path is read as.
* `Path.fileName?_of_not_dots` — it is the last name, unless it is a dot or two or nothing.
* `Path.withExtension_spells` — what a path is with another extension.
-/

namespace PinnedStack.Path

open String

/-! ## Pieces -/

/-- What follows the last slash. -/
def lastPiece (path : String) : List Char := (path.toList.reverse.takeWhile (· ≠ '/')).reverse

/-- Is a piece nothing, or a dot or two? -/
def IsDots (piece : List Char) : Prop := piece = [] ∨ piece = ['.'] ∨ piece = ['.', '.']

instance (piece : List Char) : Decidable (IsDots piece) :=
  inferInstanceAs (Decidable (_ ∨ _ ∨ _))

theorem ofList_dots {piece : List Char} :
    (ofList piece = "" ∨ ofList piece = ".") ∨ ofList piece = ".." ↔ IsDots piece := by
  have spelled (text : String) : ofList piece = text ↔ piece = text.toList := by
    rw [← String.toList_inj, String.toList_ofList]
  rw [spelled, spelled, spelled, or_assoc]
  rfl

/-- The pieces of a text from a character on, with what was read of the piece before it. -/
theorem splitOnAux_slash (l m r : List Char) (acc : List String) :
    (ofList (l ++ m ++ r)).splitOnAux "/" ⟨utf8Len l⟩ ⟨utf8Len l + utf8Len m⟩ 0 acc
      = acc.reverse ++ (List.splitOnPPrepend (· == '/') r m.reverse).map ofList := by
  rw [splitOnAux]
  match r with
  | [] =>
    have ended : Pos.Raw.atEnd (ofList (l ++ m ++ [])) ⟨utf8Len l + utf8Len m⟩ = true := by
      rw [← utf8Len_append]
      exact (atEnd_of_valid (l ++ m) []).2 rfl
    rw [if_pos ended]
    simp only [extract_of_valid, List.splitOnPPrepend, List.map_singleton, List.reverse_reverse,
      List.reverse_cons]
  | c :: r =>
    have more : ¬Pos.Raw.atEnd (ofList (l ++ m ++ c :: r)) ⟨utf8Len l + utf8Len m⟩ = true := by
      rw [← utf8Len_append, atEnd_of_valid (l ++ m) (c :: r)]
      exact List.cons_ne_nil _ _
    have here : Pos.Raw.get (ofList (l ++ m ++ c :: r)) ⟨utf8Len l + utf8Len m⟩ = c := by
      rw [← utf8Len_append]
      exact get_of_valid (l ++ m) (c :: r)
    have next : Pos.Raw.next (ofList (l ++ m ++ c :: r)) ⟨utf8Len l + utf8Len m⟩
        = ⟨utf8Len l + utf8Len m + c.utf8Size⟩ := by
      rw [← utf8Len_append]
      exact next_of_valid (l ++ m) c r
    have char : Pos.Raw.get "/" 0 = '/' := by decide
    rw [if_neg more, here, char, next]
    by_cases slash : c = '/'
    · subst slash
      have whole : Pos.Raw.atEnd "/" (Pos.Raw.next "/" 0) = true := by decide
      have back : Pos.Raw.unoffsetBy ⟨utf8Len l + utf8Len m + ('/').utf8Size⟩ (Pos.Raw.next "/" 0)
          = ⟨utf8Len l + utf8Len m⟩ := rfl
      have later := splitOnAux_slash (l ++ m ++ ['/']) [] r (ofList m :: acc)
      rw [if_pos (beq_self_eq_true '/')]
      simp only [if_pos whole, back]
      rw [extract_of_valid, List.splitOnPPrepend_cons_eq_if]
      simpa [Nat.add_assoc] using later
    · have same : Pos.Raw.unoffsetBy ⟨utf8Len l + utf8Len m⟩ 0 = ⟨utf8Len l + utf8Len m⟩ := rfl
      have later := splitOnAux_slash l (m ++ [c]) r acc
      rw [if_neg (mt beq_iff_eq.1 slash), same, next]
      simpa [List.splitOnPPrepend_cons_eq_if, slash, Nat.add_assoc] using later

theorem splitOn_eq (path : String) :
    path.splitOn "/" = (path.toList.splitOnP (· == '/')).map ofList := by
  have pieces := splitOnAux_slash [] [] path.toList []
  rw [String.splitOn.eq_1, if_neg (by decide)]
  simpa using pieces

theorem takeWhile_dropWhile (p : Char → Bool) (l : List Char) :
    (l.dropWhile p).takeWhile p = [] := by
  induction l with
  | nil => rfl
  | cons c l ih =>
    by_cases holds : p c = true
    · rw [List.dropWhile_cons_of_pos holds]
      exact ih
    · rw [List.dropWhile_cons_of_neg holds, List.takeWhile_cons_of_neg holds]

theorem slash_notMem_lastPiece (path : String) : '/' ∉ lastPiece path := by
  intro mem
  have other := List.mem_takeWhile_imp (List.mem_reverse.1 mem)
  exact absurd rfl (of_decide_eq_true other)

theorem lastPiece_ofList {name : List Char} (slashless : '/' ∉ name) :
    lastPiece (ofList name) = name := by
  have whole : name.reverse.takeWhile (· ≠ '/') = name.reverse := by
    rw [List.takeWhile_eq_self_iff]
    intro c mem
    rw [decide_eq_true_iff]
    rintro rfl
    exact slashless (List.mem_reverse.1 mem)
  rw [lastPiece, String.toList_ofList, whole, List.reverse_reverse]

/-- What follows the last slash is the last piece of a path. -/
theorem splitOn_slash (path : String) :
    ∃ front, path.splitOn "/" = front ++ [ofList (lastPiece path)] := by
  have single : (lastPiece path).splitOnP (· == '/') = [lastPiece path] :=
    List.splitOnP_eq_singleton fun c mem => by
      rw [beq_eq_false_iff_ne]
      rintro rfl
      exact slash_notMem_lastPiece path mem
  have whole : path.toList
      = (path.toList.reverse.dropWhile (· ≠ '/')).reverse ++ lastPiece path := by
    rw [lastPiece, ← List.reverse_append, List.takeWhile_append_dropWhile, List.reverse_reverse]
  have first := List.head?_dropWhile_not (fun c => decide (c ≠ '/')) path.toList.reverse
  rw [splitOn_eq]
  cases before : path.toList.reverse.dropWhile (· ≠ '/') with
  | nil =>
    rw [before] at whole
    rw [whole]
    exact ⟨[], congrArg (List.map ofList) single⟩
  | cons c rest =>
    rw [before] at whole first
    obtain rfl : c = '/' := not_not.1 (of_decide_eq_false first)
    rw [whole, List.reverse_cons, List.append_assoc, List.singleton_append,
      List.splitOnP_append_cons (p := (· == '/')) _ _ rfl, single, List.map_append]
    exact ⟨_, rfl⟩

/-! ## Last names -/

theorem trimmed_of_not_dots {chars : List Char}
    (proper : ¬IsDots (chars.takeWhile (· ≠ '/')).reverse) : trimmed chars = chars := by
  fun_cases trimmed chars with
  | case1 rest => exact absurd (.inl rfl) proper
  | case2 rest => exact absurd (.inr (.inl rfl)) proper
  | case3 => rfl

theorem splitName_of_not_dots {path : String} (proper : ¬IsDots (lastPiece path)) :
    splitName path = ((path.toList.reverse.dropWhile (· ≠ '/')).reverse, lastPiece path) := by
  rw [splitName, trimmed_of_not_dots proper]
  rfl

/-- What follows the last slash is the last name of a path, unless it is a dot or two or nothing. -/
theorem fileName?_of_not_dots {path : String} (proper : ¬IsDots (lastPiece path)) :
    fileName? path = some (lastPiece path) := by
  rw [fileName?, splitName_of_not_dots proper]
  split
  · exact absurd (.inl ‹_›) proper
  · exact absurd (.inr (.inl ‹_›)) proper
  · exact absurd (.inr (.inr ‹_›)) proper
  · rfl

theorem splitName_of_fileName? {path : String} {name : List Char}
    (named : fileName? path = some name) : (splitName path).2 = name ∧ name ≠ [] := by
  unfold fileName? at named
  split at named
  · cases named
  · cases named
  · cases named
  · cases named
    exact ⟨rfl, ‹_›⟩

theorem stemOf_subset (name : List Char) : stemOf name ⊆ name := by
  unfold stemOf
  split
  · exact List.Subset.refl _
  · intro c mem
    have front := List.drop_subset 1 _ (List.mem_reverse.1 mem)
    exact List.mem_reverse.1 (List.dropWhile_subset _ front)

theorem stemOf_ne_nil {name : List Char} (ne : name ≠ []) : stemOf name ≠ [] := by
  unfold stemOf
  split
  · exact ne
  · next nonempty => exact fun empty => nonempty (List.reverse_eq_nil_iff.1 empty)

theorem stemOf_append {stem ext : List Char} (ne : stem ≠ []) (dotless : '.' ∉ ext) :
    stemOf (stem ++ '.' :: ext) = stem := by
  have back : ((stem ++ '.' :: ext).reverse.dropWhile (· ≠ '.')).drop 1 = stem.reverse := by
    rw [List.reverse_append, List.reverse_cons, List.append_assoc, List.dropWhile_append_of_pos,
      List.singleton_append, List.dropWhile_cons_of_neg (by decide), List.drop_one, List.tail_cons]
    intro c mem
    rw [decide_eq_true_iff]
    rintro rfl
    exact dotless (List.mem_reverse.1 mem)
  unfold stemOf
  rw [back]
  split
  · exact absurd (List.reverse_eq_nil_iff.1 ‹_›) ne
  · rw [List.reverse_reverse]

/-- The extension of a name is what was put behind its stem. -/
theorem extensionOf_append {stem ext : List Char} (ne : stem ≠ []) (dotless : '.' ∉ ext) :
    extensionOf (stem ++ '.' :: ext) = ext := by
  rw [extensionOf, stemOf_append ne dotless]
  simp

/-! ## Other extensions -/

theorem lastPiece_setExtension {path ext : String} {name : List Char}
    (named : fileName? path = some name) (whole : '/' ∉ ext.toList) :
    lastPiece (setExtension path ext) = stemOf name ++ '.' :: ext.toList := by
  obtain ⟨rfl, ne⟩ := splitName_of_fileName? named
  have spelled : (setExtension path ext).toList
      = (splitName path).1 ++ (stemOf (splitName path).2 ++ '.' :: ext.toList) := by
    rw [setExtension, named]
    simp [String.toList_append]
  have slashless : ∀ c ∈ (stemOf (splitName path).2 ++ '.' :: ext.toList).reverse,
      decide (c ≠ '/') = true := by
    intro c mem
    rw [decide_eq_true_iff]
    rintro rfl
    rcases List.mem_append.1 (List.mem_reverse.1 mem) with stem | dot
    · have name := stemOf_subset _ stem
      rw [splitName] at name
      have other := List.mem_takeWhile_imp (List.mem_reverse.1 name)
      exact absurd rfl (of_decide_eq_true other)
    · rcases List.mem_cons.1 dot with eq | tail
      · cases eq
      · exact whole tail
  rw [lastPiece, spelled, List.reverse_append, List.takeWhile_append_of_pos slashless, splitName,
    List.reverse_reverse, takeWhile_dropWhile, List.append_nil, List.reverse_reverse]

/-- **What a path is with another extension**: the path without its old one if that names nothing,
or else a last name that is a stem, which is always the same, and the new extension. -/
theorem withExtension_spells (path : String) :
    (IsDots (lastPiece (cutExtension path)) ∧ ∀ ext, withExtension path ext = cutExtension path)
      ∨ ∃ stem, stem ≠ [] ∧ ∀ ext : String, '/' ∉ ext.toList →
          lastPiece (withExtension path ext) = stem ++ '.' :: ext.toList := by
  cases named : fileName? (cutExtension path) with
  | none =>
    refine .inl ⟨?_, fun ext => ?_⟩
    · by_contra proper
      rw [fileName?_of_not_dots proper] at named
      cases named
    · rw [withExtension, setExtension, named]
  | some name =>
    exact .inr ⟨stemOf name, stemOf_ne_nil (splitName_of_fileName? named).2,
      fun ext whole => lastPiece_setExtension named whole⟩

end PinnedStack.Path
