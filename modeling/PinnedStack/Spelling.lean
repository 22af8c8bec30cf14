/-!
# Taking words apart

* `withoutLast?` — a word without a mark at its end.
* `splitAtFirst?` — the parts of a word before and after the first occurrence of a mark.
-/

namespace PinnedStack

/-- The word that is left when the mark at its end is taken off. -/
def withoutLast? (mark : Char) (word : String) : Option String :=
  match word.toList.reverse with
  | [] => none
  | c :: rest => if c = mark then some (String.ofList rest.reverse) else none

/-- Splits characters at the first occurrence of a mark, which is dropped. -/
def splitChars? (mark : Char) : List Char → Option (List Char × List Char)
  | [] => none
  | c :: rest =>
      if c = mark then some ([], rest)
      else (splitChars? mark rest).map fun (before, after) => (c :: before, after)

/-- Splits a word at the first occurrence of a mark, which is dropped. -/
def splitAtFirst? (mark : Char) (word : String) : Option (String × String) :=
  (splitChars? mark word.toList).map fun (before, after) =>
    (String.ofList before, String.ofList after)

theorem splitChars?_eq_some {mark : Char} {cs before after : List Char}
    (h : splitChars? mark cs = some (before, after)) :
    cs = before ++ mark :: after ∧ mark ∉ before := by
  induction cs generalizing before with
  | nil => cases h
  | cons c rest ih =>
    simp only [splitChars?] at h
    split at h
    · rename_i eq
      cases h
      exact ⟨by simp [eq], by simp⟩
    · rename_i ne
      obtain ⟨⟨b, a⟩, found, eq⟩ := Option.map_eq_some_iff.1 h
      cases eq
      obtain ⟨rfl, absent⟩ := ih found
      refine ⟨rfl, ?_⟩
      simp only [List.mem_cons, not_or]
      exact ⟨fun e => ne e.symm, absent⟩

end PinnedStack
