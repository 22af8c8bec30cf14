import PinnedStack.Proofs.Typing.Composition

/-!
# Contracts in a row

How contracts are grouped in a composition does not matter, up to the words of their types.

* `Settles.unique`, `Settles.not_clashes` — types that meet do so in one way.
* `Settles.append_available_iff`, `Settles.append_wanted_iff` — lists in two parts meet part by part.
* `Contract.exists_andThen_of_settles` — contracts whose words settle can be composed.
* `Contract.SameWords`, `Contract.Agree` — contracts, and attempts to compose, that differ at most in
  how words are gathered into records.
* `Contract.andThen_assoc` — composition is associative, and `Contract.empty` changes nothing.
-/

namespace PinnedStack

/-! ## Types that meet -/

namespace Settles

variable {available available' wanted wanted' left left' missing missing' : List Ty}

theorem unique (h : Settles available wanted left missing)
    (h' : Settles available wanted left' missing') : left = left' ∧ missing = missing' := by
  induction h with
  | left | missing =>
    cases h' with
    | left | missing => exact ⟨rfl, rfl⟩
  | next _ _ ih =>
    cases h' with
    | next _ rest => exact ih rest

theorem not_clashes (h : Settles available wanted left missing) : ¬ Clashes available wanted := by
  induction h with
  | left | missing =>
    intro clashes
    cases clashes
  | next fit _ ih =>
    intro clashes
    cases clashes with
    | here clash => exact Bool.false_ne_true (clash.symm.trans fit)
    | later _ rest => exact ih rest

theorem symm (h : Settles available wanted left missing) :
    Settles wanted available missing left := by
  induction h with
  | left => exact .missing
  | missing => exact .left
  | next fit _ ih => exact .next ((Ty.fits_comm ..).trans fit) ih

/-- Types in two parts meet others one part after the other. -/
theorem append_available_iff : Settles (available ++ available') wanted left missing ↔
    ∃ left' middle left'', Settles available wanted left' middle
      ∧ Settles available' middle left'' missing ∧ left = left' ++ left'' := by
  induction available generalizing wanted with
  | nil =>
    constructor
    · intro h
      exact ⟨[], wanted, left, .missing, h, rfl⟩
    · rintro ⟨left', middle, left'', first, second, rfl⟩
      obtain ⟨rfl, rfl⟩ := first.unique .missing
      exact second
  | cons a available ih =>
    constructor
    · intro h
      cases h with
      | left => exact ⟨a :: available, [], available', .left, .left, rfl⟩
      | next fit rest =>
        obtain ⟨left', middle, left'', first, second, eq⟩ := ih.1 rest
        exact ⟨left', middle, left'', .next fit first, second, eq⟩
    · rintro ⟨left', middle, left'', first, second, rfl⟩
      cases first with
      | left =>
        obtain ⟨rfl, rfl⟩ := second.unique .left
        exact .left
      | next fit rest => exact .next fit (ih.2 ⟨_, _, _, rest, second, rfl⟩)

/-- Types meet others in two parts one part after the other. -/
theorem append_wanted_iff : Settles available (wanted ++ wanted') left missing ↔
    ∃ middle missing' missing'', Settles available wanted middle missing'
      ∧ Settles middle wanted' left missing'' ∧ missing = missing' ++ missing'' := by
  constructor
  · intro h
    obtain ⟨missing', middle, missing'', first, second, eq⟩ := append_available_iff.1 h.symm
    exact ⟨middle, missing', missing'', first.symm, second.symm, eq⟩
  · rintro ⟨middle, missing', missing'', first, second, eq⟩
    exact (append_available_iff.2 ⟨missing', middle, missing'', first.symm, second.symm, eq⟩).symm

end Settles

/-! ## Contracts that can be composed -/

namespace Contract

variable {a b c : Contract}

/-- What is left over and what is missing was there before. -/
theorem subset_of_settle {available wanted left missing : List Ty}
    (ok : settle available wanted = .ok (left, missing)) : left ⊆ available ∧ missing ⊆ wanted := by
  fun_induction settle available wanted with
  | case1 available =>
    cases ok
    exact ⟨List.Subset.refl _, List.Subset.refl _⟩
  | case2 wanted nonempty =>
    cases ok
    exact ⟨List.Subset.refl _, List.Subset.refl _⟩
  | case3 a available w wanted fit ih =>
    obtain ⟨left, missing⟩ := ih ok
    exact ⟨List.subset_cons_of_subset _ left, List.subset_cons_of_subset _ missing⟩
  | case4 a available w wanted clash => cases ok

theorem fieldsKnown_join (knownA : a.FieldsKnown) (knownB : b.FieldsKnown)
    (ok : a.join b = .ok c) : c.FieldsKnown := by
  unfold join at ok
  split at ok
  · cases ok
  · rename_i left missing settled
    cases ok
    obtain ⟨left, missing⟩ := subset_of_settle settled
    intro t mem
    simp only [List.mem_append, List.mem_reverse] at mem
    rcases mem with (mem | mem) | mem | mem
    · exact knownB t (List.mem_append_left _ (List.mem_reverse.1 (missing mem)))
    · exact knownA t (List.mem_append_left _ mem)
    · exact knownA t (List.mem_append_right _ (List.mem_reverse.1 (left mem)))
    · exact knownB t (List.mem_append_right _ mem)

/-- A composed contract has only fields that the two have. -/
theorem fieldsKnown_andThen (knownA : a.FieldsKnown) (knownB : b.FieldsKnown)
    (ok : a.andThen b = .ok c) : c.FieldsKnown := by
  have known : ∀ ts : List Ty, ∀ t ∈ ts.flatMap Ty.words, t.FieldsKnown :=
    fun _ t mem => Ty.fieldsKnown_of_isRecord (Ty.isRecord_of_mem_flatMap t mem)
  unfold andThen at ok
  split at ok
  · rename_i joined
    cases ok
    exact fieldsKnown_join knownA knownB joined
  · split at ok
    · refine fieldsKnown_join (fun t mem => ?_) (fun t mem => ?_) ok
      · rcases List.mem_append.1 mem with mem | mem
        · exact knownA t (List.mem_append_left _ mem)
        · exact known _ t mem
      · rcases List.mem_append.1 mem with mem | mem
        · exact known _ t mem
        · exact knownB t (List.mem_append_right _ mem)
    · cases ok

theorem exists_andThen_of_settles {left missing : List Ty} (known : a.FieldsKnown)
    (settles : Settles a.gives b.needs left missing) :
    ∃ c, a.andThen b = .ok c ∧ c.needs = a.needs ++ missing ∧ c.gives = b.gives ++ left := by
  cases composed : a.andThen b with
  | error fault => exact absurd (andThen_clashes composed) settles.not_clashes
  | ok c =>
    obtain ⟨left', missing', settles', needs, gives⟩ := andThen_settles known composed
    obtain ⟨rfl, rfl⟩ := settles.unique settles'
    exact ⟨c, rfl, needs, gives⟩

/-! ## Three in a row -/

/-- Contracts with the same words, which may be gathered into records in different ways. -/
def SameWords (c d : Contract) : Prop :=
  c.inputs.flatMap Ty.words = d.inputs.flatMap Ty.words
    ∧ c.outputs.flatMap Ty.words = d.outputs.flatMap Ty.words

theorem sameWords_iff {d : Contract} : c.SameWords d ↔ c.needs = d.needs ∧ c.gives = d.gives := by
  simp only [SameWords, needs, gives, List.reverse_inj]

/-- Attempts to compose that both fail, or both end in the same words. -/
def Agree : Except Fault Contract → Except Fault Contract → Prop
  | .ok c, .ok d => c.SameWords d
  | .error _, .error _ => True
  | _, _ => False

/-- The first two of three contracts, and then the third. -/
def firstTwo (a b c : Contract) : Except Fault Contract := do
  let ab ← a.andThen b
  ab.andThen c

/-- The first of three contracts, and then the last two. -/
def lastTwo (a b c : Contract) : Except Fault Contract := do
  let bc ← b.andThen c
  a.andThen bc

/-- Where three contracts can be composed from the left, they can be from the right. -/
theorem exists_lastTwo {d : Contract} (knownA : a.FieldsKnown) (knownB : b.FieldsKnown)
    (ok : firstTwo a b c = .ok d) : ∃ e, lastTwo a b c = .ok e ∧ d.SameWords e := by
  obtain ⟨ab, first, second⟩ := Except.bind_eq_ok.1 ok
  obtain ⟨left, missing, settlesAB, needsAB, givesAB⟩ := andThen_settles knownA first
  obtain ⟨_, missing', settles, needs, gives⟩ :=
    andThen_settles (fieldsKnown_andThen knownA knownB first) second
  rw [givesAB] at settles
  obtain ⟨left', middle, left'', settlesBC, rest, rfl⟩ := Settles.append_available_iff.1 settles
  obtain ⟨bc, inner, needsBC, givesBC⟩ := exists_andThen_of_settles knownB settlesBC
  have outer : Settles a.gives bc.needs left'' (missing ++ missing') := by
    rw [needsBC]
    exact Settles.append_wanted_iff.2 ⟨_, _, _, settlesAB, rest, rfl⟩
  obtain ⟨e, done, needs', gives'⟩ := exists_andThen_of_settles knownA outer
  refine ⟨e, Except.bind_eq_ok.2 ⟨bc, inner, done⟩, sameWords_iff.2 ⟨?_, ?_⟩⟩
  · rw [needs, needsAB, needs', List.append_assoc]
  · rw [gives, gives', givesBC, List.append_assoc]

/-- Where three contracts can be composed from the right, they can be from the left. -/
theorem exists_firstTwo {e : Contract} (knownA : a.FieldsKnown) (knownB : b.FieldsKnown)
    (ok : lastTwo a b c = .ok e) : ∃ d, firstTwo a b c = .ok d := by
  obtain ⟨bc, inner, outer⟩ := Except.bind_eq_ok.1 ok
  obtain ⟨left, middle, settlesBC, needsBC, -⟩ := andThen_settles knownB inner
  obtain ⟨_, _, settles, -, -⟩ := andThen_settles knownA outer
  rw [needsBC] at settles
  obtain ⟨spare, missing, _, settlesAB, rest, rfl⟩ := Settles.append_wanted_iff.1 settles
  obtain ⟨ab, first, -, givesAB⟩ := exists_andThen_of_settles knownA settlesAB
  have second := Settles.append_available_iff.2 ⟨_, _, _, settlesBC, rest, rfl⟩
  rw [← givesAB] at second
  obtain ⟨d, done, -, -⟩ :=
    exists_andThen_of_settles (fieldsKnown_andThen knownA knownB first) second
  exact ⟨d, Except.bind_eq_ok.2 ⟨ab, first, done⟩⟩

theorem empty_andThen (d : Contract) : empty.andThen d = .ok d := by
  simp [andThen, join, empty]

theorem andThen_empty (d : Contract) : d.andThen empty = .ok d := by
  simp [andThen, join, empty]

/-- **Contracts are a partial monoid under composition.** Three contracts in a row can be composed
from the left just where they can be from the right, and the words that they then take and leave are
the same. The empty contract changes no contract, on either side. Fields that stand for errors only
matter in the first two: those of the third are not compared with anything that they could match. -/
theorem andThen_assoc (knownA : a.FieldsKnown) (knownB : b.FieldsKnown) :
    Agree (firstTwo a b c) (lastTwo a b c)
      ∧ ∀ d : Contract, empty.andThen d = .ok d ∧ d.andThen empty = .ok d := by
  refine ⟨?_, fun d => ⟨empty_andThen d, andThen_empty d⟩⟩
  cases left : firstTwo a b c with
  | ok d =>
    obtain ⟨e, right, same⟩ := exists_lastTwo knownA knownB left
    rw [right]
    exact same
  | error fault =>
    cases right : lastTwo a b c with
    | ok e =>
      obtain ⟨d, ok⟩ := exists_firstTwo knownA knownB right
      rw [left] at ok
      cases ok
    | error fault' => trivial

/-- Two strings, of which a pointer is taken: from the left the whole border is settled word by word,
so that a string is left as two words, and from the right only its upper half is. -/
theorem andThen_assoc_strings :
    ∃ a b c d e : Contract, a = ⟨[], [.str]⟩ ∧ b = ⟨[], [.str]⟩ ∧ c = ⟨[.pointer], []⟩
      ∧ a.FieldsKnown ∧ b.FieldsKnown ∧ firstTwo a b c = .ok d ∧ lastTwo a b c = .ok e
      ∧ d.outputs = [.number, .pointer, .number] ∧ e.outputs = [.str, .number] ∧ d.SameWords e := by
  have known : Contract.FieldsKnown ⟨[], [.str]⟩ := by
    simp [FieldsKnown, Ty.FieldsKnown, Ty.str, Ty.ofRecord, Record.str]
  have left : firstTwo ⟨[], [.str]⟩ ⟨[], [.str]⟩ ⟨[.pointer], []⟩
      = .ok ⟨[], [.number, .pointer, .number]⟩ := rfl
  have right : lastTwo ⟨[], [.str]⟩ ⟨[], [.str]⟩ ⟨[.pointer], []⟩ = .ok ⟨[], [.str, .number]⟩ := rfl
  have agree := (andThen_assoc (c := ⟨[.pointer], []⟩) known known).1
  rw [left, right] at agree
  exact ⟨_, _, _, _, _, rfl, rfl, rfl, known, known, left, right, rfl, rfl, agree⟩

end Contract

end PinnedStack
