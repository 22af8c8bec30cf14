import PinnedStack.Proofs.Grammar.Literals

/-!
# Every opener of a program is closed

* `Keyword.isOpener` — the keywords of blocks and definitions, which a `;` has to close.
* `levels` — the levels that are open behind tokens, starting inside that of an opener. Blocks open
  levels inside it; definitions may be counted too. `Closes` — that of the opener is closed.
* `exists_levels` — what is open stays open where definitions are counted too.
* `Tight` — tokens that open and close their own levels only, with all their openers closed.
* `Statement.tight` — statements are tight. `Item.closed` — every opener of an item is closed in it.
* `Program.closes_of_ofTokens` — in a program, what stands behind an opener closes it.
-/

namespace PinnedStack

open Token (Key Word Atom)

/-! ## Levels -/

/-- Does a keyword open a block of a body? -/
def Keyword.isBlock : Keyword → Bool
  | branch | loop | bind => true
  | _ => false

/-- Does a keyword open what a `;` closes, a block or a definition? -/
def Keyword.isOpener (k : Keyword) : Bool := k.isBlock || (Form.ofKeyword? k).isSome

/-- Does a keyword open a level inside another? Blocks do; definitions may be counted too. -/
def Keyword.nests (definitions : Bool) (k : Keyword) : Bool :=
  if definitions then k.isOpener else k.isBlock

/-- Is a token the keyword of a block or of a definition? -/
def Token.isOpener (t : Token) : Bool :=
  match t.kind with
  | .keyword k => k.isOpener
  | _ => false

theorem Token.Key.isOpener_eq {k : Keyword} (t : Key k) : t.1.isOpener = k.isOpener := by
  simp [Token.isOpener, t.2]

/-- The number of levels open inside that of an opener, after one more token. None is left, not even
that of the opener, once it is closed. -/
def level (definitions : Bool) : Option Nat → Token → Option Nat
  | none, _ => none
  | some n, t =>
      match t.kind with
      | .keyword .semicolon => if n = 0 then none else some (n - 1)
      | .keyword k => some (if k.nests definitions then n + 1 else n)
      | _ => some n

/-- The number of levels open behind tokens. -/
def levels (definitions : Bool) (start : Option Nat) (ts : List Token) : Option Nat :=
  ts.foldl (level definitions) start

/-- Do tokens close the opener in front of them? -/
def Closes (definitions : Bool) (ts : List Token) : Prop := levels definitions (some 0) ts = none

variable {definitions : Bool} {t : Token} {ts xs ys : List Token} {n m k : Nat}

theorem levels_append (start : Option Nat) (xs ys : List Token) :
    levels definitions start (xs ++ ys) = levels definitions (levels definitions start xs) ys :=
  List.foldl_append ..

@[simp] theorem levels_none (ts : List Token) : levels definitions none ts = none := by
  induction ts with
  | nil => rfl
  | cons t ts ih => exact ih

theorem level_semicolon (kind : t.kind = .keyword .semicolon) :
    level definitions (some n) t = if n = 0 then none else some (n - 1) := by
  simp only [level, kind]

theorem level_nests {k : Keyword} (nests : k.nests definitions = true) (kind : t.kind = .keyword k) :
    level definitions (some n) t = some (n + 1) := by
  have stays : k ≠ .semicolon := by
    intro eq
    subst eq
    cases definitions <;> exact absurd nests (by decide)
  simp only [level, kind]
  exact congrArg some (if_pos nests)

theorem level_block {k : Keyword} (block : k.isBlock = true) (kind : t.kind = .keyword k) :
    level definitions (some n) t = some (n + 1) :=
  level_nests (by cases definitions <;> simp [Keyword.nests, Keyword.isOpener, block]) kind

theorem level_flat (stays : t.kind ≠ .keyword .semicolon)
    (flat : ∀ k, t.kind = .keyword k → k.nests definitions = false) :
    level definitions (some n) t = some n := by
  simp only [level]
  split
  · rename_i kind
    exact absurd kind stays
  · rename_i b _ kind
    exact congrArg some (if_neg (Bool.eq_false_iff.1 (flat b kind)))
  · rfl

theorem level_quiet (stays : t.kind ≠ .keyword .semicolon) (closed : t.isOpener = false) :
    level definitions (some n) t = some n := by
  refine level_flat stays fun k kind => ?_
  have none : k.isOpener = false := by simpa [Token.isOpener, kind] using closed
  cases definitions with
  | true => exact none
  | false => exact (Bool.or_eq_false_iff.1 none).1

theorem level_word (kind : t.kind = .word) : level definitions (some n) t = some n :=
  level_quiet (by simp [kind]) (by simp [Token.isOpener, kind])

theorem exists_level_of_ne (stays : t.kind ≠ .keyword .semicolon) :
    ∃ m, level definitions (some n) t = some m := by
  unfold level
  simp only
  split
  · rename_i kind
    exact absurd kind stays
  · exact ⟨_, rfl⟩
  · exact ⟨_, rfl⟩

/-- Where definitions are counted too, at least as many levels are open. -/
theorem exists_level (definitions : Bool) (le : n ≤ m) (still : level false (some n) t = some k) :
    ∃ l, k ≤ l ∧ level definitions (some m) t = some l := by
  unfold level at still ⊢
  simp only at still ⊢
  split at still
  · split at still
    · cases still
    · cases still
      exact ⟨m - 1, by omega, if_neg (by omega)⟩
  · rename_i b _ kind
    cases still
    refine ⟨_, ?_, rfl⟩
    have more : b.nests false = true → b.nests definitions = true := fun block => by
      have block : b.isBlock = true := block
      cases definitions <;> simp [Keyword.nests, Keyword.isOpener, block]
    split
    · rename_i block
      rw [if_pos (more block)]
      omega
    · split <;> omega
  · cases still
    exact ⟨m, le, rfl⟩

/-- **What is open stays open where definitions are counted too.** -/
theorem exists_levels (definitions : Bool) (le : n ≤ m) (still : levels false (some n) ts = some k) :
    ∃ l, k ≤ l ∧ levels definitions (some m) ts = some l := by
  induction ts generalizing n m with
  | nil =>
    cases still
    exact ⟨m, le, rfl⟩
  | cons t ts ih =>
    change levels false (level false (some n) t) ts = some k at still
    cases here : level false (some n) t with
    | none => simp [here] at still
    | some n' =>
      obtain ⟨m', le', there⟩ := exists_level definitions le here
      rw [here] at still
      obtain ⟨l, most, eq⟩ := ih le' still
      exact ⟨l, most, (congrArg (levels definitions · ts) there).trans eq⟩

/-- What closes an opener where definitions are counted closes it where they are not. -/
theorem Closes.of_true (h : Closes true ts) : Closes definitions ts := by
  cases definitions with
  | true => exact h
  | false =>
    refine Option.eq_none_iff_forall_ne_some.2 fun k still => ?_
    obtain ⟨l, -, eq⟩ := exists_levels true (Nat.le_refl 0) still
    exact Option.some_ne_none l (eq.symm.trans h)

theorem not_closes_of_levels (still : levels false (some 0) ts = some k) : ¬ Closes definitions ts := by
  intro closes
  obtain ⟨l, -, eq⟩ := exists_levels definitions (Nat.le_refl 0) still
  exact Option.some_ne_none l (eq.symm.trans closes)

/-! ## Tight tokens -/

/-- Every opener is closed by what stands behind it. -/
def Sealed : List Token → Prop
  | [] => True
  | t :: ts => (t.isOpener = true → Closes true ts) ∧ Sealed ts

theorem Sealed.append (left : Sealed xs) (right : Sealed ys) : Sealed (xs ++ ys) := by
  induction xs with
  | nil => exact right
  | cons t xs ih =>
    refine ⟨fun opens => ?_, ih left.2⟩
    have closes : levels true (some 0) xs = none := left.1 opens
    show levels true (some 0) (xs ++ ys) = none
    rw [levels_append, closes, levels_none]

theorem Sealed.closes (h : Sealed ts) {rest : List Token} (behind : t :: rest <:+ ts)
    (opens : t.isOpener = true) : Closes true rest := by
  induction ts with
  | nil => simp at behind
  | cons u ts ih =>
    rcases List.suffix_cons_iff.1 behind with same | later
    · cases same
      exact h.1 opens
    · exact ih h.2 later

/-- Tokens that close their own levels and no others, with every opener among them closed. -/
structure Tight (ts : List Token) : Prop where
  levels_eq : ∀ n, levels true (some n) ts = some n
  closed : Sealed ts

namespace Tight

theorem nil : Tight [] := ⟨fun _ => rfl, trivial⟩

theorem append (left : Tight xs) (right : Tight ys) : Tight (xs ++ ys) :=
  ⟨fun n => by rw [levels_append, left.levels_eq, right.levels_eq], left.closed.append right.closed⟩

theorem cons (stays : t.kind ≠ .keyword .semicolon) (quiet : t.isOpener = false) (h : Tight ts) :
    Tight (t :: ts) := by
  refine ⟨fun n => ?_, fun opens => absurd opens (Bool.eq_false_iff.1 quiet), h.closed⟩
  change levels true (level true (some n) t) ts = some n
  rw [level_quiet stays quiet, h.levels_eq]

theorem of_forall (stays : ∀ t ∈ ts, t.kind ≠ .keyword .semicolon)
    (quiet : ∀ t ∈ ts, t.isOpener = false) : Tight ts := by
  induction ts with
  | nil => exact nil
  | cons t ts ih =>
    obtain ⟨stays, others⟩ := List.forall_mem_cons.1 stays
    obtain ⟨quiet, rest⟩ := List.forall_mem_cons.1 quiet
    exact cons stays quiet (ih others rest)

theorem block {k : Keyword} (opener : Key k) (opens : k.isOpener = true) (inner : Tight ts)
    (stop : Key .semicolon) : Tight (opener.1 :: (ts ++ [stop.1])) := by
  have closes : ∀ n, levels true (some n) (ts ++ [stop.1]) = if n = 0 then none else some (n - 1) := by
    intro n
    rw [levels_append, inner.levels_eq]
    exact level_semicolon stop.2
  have quiet : stop.1.isOpener = false := stop.isOpener_eq
  refine ⟨fun n => ?_, fun _ => closes 0, inner.closed.append ⟨fun opens => ?_, trivial⟩⟩
  · have opened : level true (some n) opener.1 = some (n + 1) := level_nests opens opener.2
    change levels true (level true (some n) opener.1) (ts ++ [stop.1]) = some n
    rw [opened, closes]
    simp
  · rw [quiet] at opens
    cases opens

end Tight

/-! ## Statements and items -/

theorem Token.Atom.quiet (t : Atom) : t.1.kind ≠ .keyword .semicolon ∧ t.1.isOpener = false := by
  refine ⟨t.2 _, ?_⟩
  unfold Token.isOpener
  split
  · rename_i k kind
    exact absurd kind (t.2 k)
  · rfl

theorem Token.Key.quiet {k : Keyword} (m : Key k) (other : k ≠ .semicolon) (none : k.isOpener = false) :
    m.1.kind ≠ .keyword .semicolon ∧ m.1.isOpener = false :=
  ⟨fun kind => other (by have kinds := m.2.symm.trans kind; cases kinds; rfl),
    m.isOpener_eq.trans none⟩

theorem Token.Key.level_eq {k : Keyword} (m : Key k) (other : k ≠ .semicolon)
    (none : k.isOpener = false) : level definitions (some n) m.1 = some n :=
  level_quiet (m.quiet other none).1 (m.quiet other none).2

theorem tight_words (names : List Word) : Tight names.unattach := by
  have quiet : ∀ t ∈ names.unattach, t.kind ≠ .keyword .semicolon ∧ t.isOpener = false := by
    intro t mem
    obtain ⟨word, -⟩ := List.mem_unattach.1 mem
    exact Token.Atom.quiet ⟨t, by simp [word]⟩
  exact .of_forall (fun t mem => (quiet t mem).1) fun t mem => (quiet t mem).2

mutual

/-- **A statement is tight.** -/
theorem Statement.tight : ∀ s : Statement, Tight s.spell
  | .atom t => .cons t.quiet.1 t.quiet.2 .nil
  | .ifThen o yes stop => .block o rfl (tight_spellAll yes) stop
  | .ifElse o yes middle no stop => by
    have quiet := middle.quiet (by decide) rfl
    have inner := (tight_spellAll yes).append (.cons quiet.1 quiet.2 (tight_spellAll no))
    simpa [Statement.spell] using Tight.block o rfl inner stop
  | .loop o iterator condition middle body stop => by
    have name := Token.Atom.quiet ⟨iterator.1, by simp [iterator.2]⟩
    have quiet := middle.quiet (by decide) rfl
    have inner := Tight.cons name.1 name.2
      ((tight_spellAll condition).append (.cons quiet.1 quiet.2 (tight_spellAll body)))
    simpa [Statement.spell] using Tight.block o rfl inner stop
  | .bind o names any middle body stop => by
    have quiet := middle.quiet (by decide) rfl
    have inner := (tight_words names).append (.cons quiet.1 quiet.2 (tight_spellAll body))
    simpa [Statement.spell] using Tight.block o rfl inner stop

theorem tight_spellAll : ∀ ss : List Statement, Tight (spellAll ss)
  | [] => .nil
  | s :: ss => s.tight.append (tight_spellAll ss)

end

/-- Openers have no place in a heading or in a plain definition. -/
theorem Token.isOuter_of_isOpener (opens : t.isOpener = true) : t.isOuter = true := by
  unfold Token.isOpener at opens
  split at opens
  · rename_i k kind
    cases k <;> cases opens <;> simp [Token.isOuter, kind] <;> rfl
  · cases opens

/-- **Every opener of an item is closed in it.** -/
theorem Item.closed {item : Item} (spare : item.Spare) : Sealed item.spell := by
  cases item with
  | statement s => exact s.tight.closed
  | stray t =>
    have quiet : t.1.isOpener = false := t.isOpener_eq
    exact ⟨fun opens => absurd opens (Bool.eq_false_iff.1 quiet), trivial⟩
  | plain form opener text inside stop =>
    have quiet : ∀ t ∈ text, t.isOpener = false := fun t mem =>
      Bool.eq_false_iff.2 fun opens => spare t mem (Token.isOuter_of_isOpener opens)
    have opens : form.keyword.isOpener = true := by cases form <;> rfl
    exact (Tight.block opener opens (.of_forall inside quiet) stop).closed
  | function opener heading inside paren body stop =>
    have quiet : ∀ t ∈ heading, t.isOpener = false := fun t mem =>
      Bool.eq_false_iff.2 fun opens => spare t mem (.inl (Token.isOuter_of_isOpener opens))
    have front : Tight heading := .of_forall (fun t mem kind => spare t mem (.inr kind)) quiet
    have quiet := paren.quiet (by decide) rfl
    have inner := front.append (.cons quiet.1 quiet.2 (tight_spellAll body))
    simpa [Item.spell] using (Tight.block opener rfl inner stop).closed

theorem sealed_items {items : List Item} (spare : ∀ item ∈ items, item.Spare) :
    Sealed (items.flatMap Item.spell) := by
  induction items with
  | nil => trivial
  | cons item items ih =>
    obtain ⟨first, others⟩ := List.forall_mem_cons.1 spare
    exact (Item.closed first).append (ih others)

/-- **In a program what stands behind an opener closes it.** -/
theorem Program.closes_of_ofTokens {limits : Limits} {text : Scanned} {result : Program × Tables}
    (ok : Program.ofTokens limits text = .ok result) (behind : t :: ts <:+ text.tokens)
    (opens : t.isOpener = true) : Closes definitions ts := by
  obtain ⟨survey, items, last, first, spelled, -⟩ := elaborates_of_ofTokens ok
  have spare := Survey.spare_of_ofTokens first spelled
  exact .of_true ((sealed_items spare).closes (spelled ▸ behind) opens)

end PinnedStack
