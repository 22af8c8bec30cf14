import PinnedStack.Token.Basic

/-!
# Statements

* `Statement` — a statement with all its tokens: an atom, or one of the four blocks.
* `Statement.spell`, `spellAll` — the tokens of statements in order. `Statement.infix_of_bind` and its
  kin — where a text spells a statement, it spells the parts.
* `Token.begins` — the tokens that statements start with.
* `spellAll_inj` — up to a token that starts none, tokens spell one sequence of statements at most.
-/

namespace PinnedStack

/-- A token that is the given keyword. -/
abbrev Token.Key (k : Keyword) := { t : Token // t.kind = .keyword k }

abbrev Token.Word := { t : Token // t.kind = .word }

/-- A token that is a word or a literal. -/
abbrev Token.Atom := { t : Token // ∀ k, t.kind ≠ .keyword k }

open Token (Key Word Atom)

/-- A statement with all its tokens. -/
inductive Statement where
  | atom (token : Atom)
  | ifThen (opener : Key .branch) (yes : List Statement) (stop : Key .semicolon)
  | ifElse (opener : Key .branch) (yes : List Statement) (middle : Key .otherwise)
      (no : List Statement) (stop : Key .semicolon)
  | loop (opener : Key .loop) (iterator : Word) (condition : List Statement) (middle : Key .body)
      (body : List Statement) (stop : Key .semicolon)
  | bind (opener : Key .bind) (names : List Word) (any : names ≠ []) (middle : Key .within)
      (body : List Statement) (stop : Key .semicolon)

mutual

def Statement.spell : Statement → List Token
  | .atom token => [token.1]
  | .ifThen opener yes stop => opener.1 :: (spellAll yes ++ [stop.1])
  | .ifElse opener yes middle no stop =>
      opener.1 :: (spellAll yes ++ middle.1 :: (spellAll no ++ [stop.1]))
  | .loop opener iterator condition middle body stop =>
      opener.1 :: iterator.1 :: (spellAll condition ++ middle.1 :: (spellAll body ++ [stop.1]))
  | .bind opener names _ middle body stop =>
      opener.1 :: (names.unattach ++ middle.1 :: (spellAll body ++ [stop.1]))

/-- The tokens of statements in order. -/
def spellAll : List Statement → List Token
  | [] => []
  | s :: ss => s.spell ++ spellAll ss

end

/-- Does a statement start with the token? -/
def Token.begins (t : Token) : Bool :=
  match t.kind with
  | .keyword .branch => true
  | .keyword .loop => true
  | .keyword .bind => true
  | .keyword _ => false
  | _ => true

theorem Token.Atom.begins (t : Atom) : t.1.begins = true := by
  unfold Token.begins
  split
  · rfl
  · rfl
  · rfl
  · rename_i kind
    exact absurd kind (t.2 _)
  · rfl

theorem Token.Key.begins_eq {k : Keyword} (t : Key k) :
    t.1.begins = (k == .branch || k == .loop || k == .bind) := by
  unfold Token.begins
  rw [t.2]
  cases k <;> rfl

/-- Each statement has a first token, and it starts statements. -/
theorem Statement.exists_spell_eq (s : Statement) :
    ∃ t rest, s.spell = t :: rest ∧ t.begins = true := by
  cases s with
  | atom token => exact ⟨_, _, rfl, token.begins⟩
  | ifThen opener => exact ⟨_, _, rfl, opener.begins_eq⟩
  | ifElse opener => exact ⟨_, _, rfl, opener.begins_eq⟩
  | loop opener => exact ⟨_, _, rfl, opener.begins_eq⟩
  | bind opener => exact ⟨_, _, rfl, opener.begins_eq⟩

/-! ## Parts of a text -/

section Parts

variable {opener : Key .branch} {middle : Key .otherwise} {stop : Key .semicolon}
  {yes no condition body rest : List Statement} {tokens : List Token}

theorem spellAll_infix_of_cons {s : Statement} (h : spellAll (s :: rest) <:+: tokens) :
    s.spell <:+: tokens ∧ spellAll rest <:+: tokens :=
  ⟨.trans (List.prefix_append ..).isInfix h, .trans (List.suffix_append ..).isInfix h⟩

namespace Statement

theorem infix_of_ifThen (h : (ifThen opener yes stop).spell <:+: tokens) :
    spellAll yes <:+: tokens := .trans ⟨[opener.1], [stop.1], by simp [spell]⟩ h

theorem infix_of_ifElse (h : (ifElse opener yes middle no stop).spell <:+: tokens) :
    spellAll yes <:+: tokens ∧ spellAll no <:+: tokens :=
  ⟨.trans ⟨[opener.1], middle.1 :: (spellAll no ++ [stop.1]), by simp [spell]⟩ h,
    .trans ⟨opener.1 :: (spellAll yes ++ [middle.1]), [stop.1], by simp [spell]⟩ h⟩

theorem infix_of_loop {opener : Key .loop} {iterator : Word} {middle : Key .body}
    (h : (loop opener iterator condition middle body stop).spell <:+: tokens) :
    spellAll condition <:+: tokens ∧ spellAll body <:+: tokens :=
  ⟨.trans ⟨[opener.1, iterator.1], middle.1 :: (spellAll body ++ [stop.1]), by simp [spell]⟩ h,
    .trans ⟨opener.1 :: iterator.1 :: (spellAll condition ++ [middle.1]), [stop.1],
      by simp [spell]⟩ h⟩

/-- The list of names of a `bind`, and its body. -/
theorem infix_of_bind {opener : Key .bind} {names : List Word} {any : names ≠ []}
    {middle : Key .within} (h : (bind opener names any middle body stop).spell <:+: tokens) :
    opener.1 :: (names.unattach ++ [middle.1]) <:+: tokens ∧ spellAll body <:+: tokens :=
  ⟨.trans ⟨[], spellAll body ++ [stop.1], by simp [spell]⟩ h,
    .trans ⟨opener.1 :: (names.unattach ++ [middle.1]), [stop.1], by simp [spell]⟩ h⟩

end Statement

end Parts

/-! ## One reading at most -/

theorem Token.Key.ne {k l : Keyword} (s : Key k) (t : Key l) (differ : k ≠ l) : s.1 ≠ t.1 := by
  intro same
  have kinds := s.2
  rw [same, t.2] at kinds
  exact differ (by cases kinds; rfl)

/-- Words are taken up to the first token that is none. -/
theorem words_inj {k : Keyword} {xs ys : List Word} {s t : Key k} {rest rest' : List Token}
    (same : xs.unattach ++ s.1 :: rest = ys.unattach ++ t.1 :: rest') :
    xs = ys ∧ s = t ∧ rest = rest' := by
  have apart : ∀ (w : Word) (m : Key k), w.1 ≠ m.1 := by
    intro w m eq
    have kinds := w.2
    rw [eq, m.2] at kinds
    cases kinds
  induction xs generalizing ys with
  | nil =>
    cases ys with
    | nil =>
      simp only [List.unattach_nil, List.nil_append, List.cons.injEq] at same
      exact ⟨rfl, Subtype.ext same.1, same.2⟩
    | cons y ys =>
      simp only [List.unattach_nil, List.nil_append, List.unattach_cons, List.cons_append,
        List.cons.injEq] at same
      exact absurd same.1.symm (apart y s)
  | cons x xs ih =>
    cases ys with
    | nil =>
      simp only [List.unattach_nil, List.nil_append, List.unattach_cons, List.cons_append,
        List.cons.injEq] at same
      exact absurd same.1 (apart x t)
    | cons y ys =>
      simp only [List.unattach_cons, List.cons_append, List.cons.injEq] at same
      obtain ⟨rfl, rest⟩ := ih same.2
      exact ⟨by rw [Subtype.ext same.1], rest⟩

theorem Token.Atom.ne {k : Keyword} (t : Atom) (m : Key k) : t.1 ≠ m.1 := by
  intro same
  exact t.2 k (same ▸ m.2)

mutual

theorem Statement.spell_inj : ∀ (s s' : Statement) {rest rest' : List Token},
    s.spell ++ rest = s'.spell ++ rest' → s = s' ∧ rest = rest'
  | .atom t, s', rest, rest', same => by
    cases s' with
    | atom t' =>
      simp only [Statement.spell, List.cons_append, List.nil_append, List.cons.injEq] at same
      exact ⟨by rw [Subtype.ext same.1], same.2⟩
    | ifThen o | ifElse o | loop o | bind o =>
      simp only [Statement.spell, List.cons_append, List.nil_append, List.cons.injEq] at same
      exact absurd same.1 (t.ne o)
  | .ifThen o yes stop, s', rest, rest', same => by
    cases s' with
    | atom t =>
      simp only [Statement.spell, List.cons_append, List.nil_append, List.cons.injEq] at same
      exact absurd same.1.symm (t.ne o)
    | ifThen o' yes' stop' =>
      simp only [Statement.spell, List.cons_append, List.append_assoc, List.nil_append,
        List.cons.injEq] at same
      obtain ⟨opener, inner⟩ := same
      obtain ⟨rfl, last, after⟩ := spellAll_inj yes yes' stop.begins_eq stop'.begins_eq inner
      exact ⟨by rw [Subtype.ext opener, Subtype.ext last], after⟩
    | ifElse o' yes' middle' =>
      simp only [Statement.spell, List.cons_append, List.append_assoc, List.nil_append,
        List.cons.injEq] at same
      obtain ⟨-, last, -⟩ := spellAll_inj yes yes' stop.begins_eq middle'.begins_eq same.2
      exact absurd last (stop.ne middle' (by decide))
    | loop o' | bind o' =>
      simp only [Statement.spell, List.cons_append, List.cons.injEq] at same
      exact absurd same.1 (o.ne o' (by decide))
  | .ifElse o yes middle no stop, s', rest, rest', same => by
    cases s' with
    | atom t =>
      simp only [Statement.spell, List.cons_append, List.nil_append, List.cons.injEq] at same
      exact absurd same.1.symm (t.ne o)
    | ifThen o' yes' stop' =>
      simp only [Statement.spell, List.cons_append, List.append_assoc, List.nil_append,
        List.cons.injEq] at same
      obtain ⟨-, last, -⟩ := spellAll_inj yes yes' middle.begins_eq stop'.begins_eq same.2
      exact absurd last (middle.ne stop' (by decide))
    | ifElse o' yes' middle' no' stop' =>
      simp only [Statement.spell, List.cons_append, List.append_assoc, List.nil_append,
        List.cons.injEq] at same
      obtain ⟨opener, inner⟩ := same
      obtain ⟨rfl, between, inner⟩ :=
        spellAll_inj yes yes' middle.begins_eq middle'.begins_eq inner
      obtain ⟨rfl, last, after⟩ := spellAll_inj no no' stop.begins_eq stop'.begins_eq inner
      exact ⟨by rw [Subtype.ext opener, Subtype.ext between, Subtype.ext last], after⟩
    | loop o' | bind o' =>
      simp only [Statement.spell, List.cons_append, List.cons.injEq] at same
      exact absurd same.1 (o.ne o' (by decide))
  | .loop o iterator condition middle body stop, s', rest, rest', same => by
    cases s' with
    | atom t =>
      simp only [Statement.spell, List.cons_append, List.nil_append, List.cons.injEq] at same
      exact absurd same.1.symm (t.ne o)
    | loop o' iterator' condition' middle' body' stop' =>
      simp only [Statement.spell, List.cons_append, List.append_assoc, List.nil_append,
        List.cons.injEq] at same
      obtain ⟨opener, named, inner⟩ := same
      obtain ⟨rfl, between, inner⟩ :=
        spellAll_inj condition condition' middle.begins_eq middle'.begins_eq inner
      obtain ⟨rfl, last, after⟩ := spellAll_inj body body' stop.begins_eq stop'.begins_eq inner
      refine ⟨?_, after⟩
      rw [Subtype.ext opener, Subtype.ext named, Subtype.ext between, Subtype.ext last]
    | ifThen o' | ifElse o' | bind o' =>
      simp only [Statement.spell, List.cons_append, List.cons.injEq] at same
      exact absurd same.1 (o.ne o' (by decide))
  | .bind o names any middle body stop, s', rest, rest', same => by
    cases s' with
    | atom t =>
      simp only [Statement.spell, List.cons_append, List.nil_append, List.cons.injEq] at same
      exact absurd same.1.symm (t.ne o)
    | bind o' names' any' middle' body' stop' =>
      simp only [Statement.spell, List.cons_append, List.append_assoc, List.nil_append,
        List.cons.injEq] at same
      obtain ⟨opener, inner⟩ := same
      obtain ⟨rfl, rfl, onward⟩ := words_inj inner
      obtain ⟨rfl, last, after⟩ := spellAll_inj body body' stop.begins_eq stop'.begins_eq onward
      exact ⟨by rw [Subtype.ext opener, Subtype.ext last], after⟩
    | ifThen o' | ifElse o' | loop o' =>
      simp only [Statement.spell, List.cons_append, List.cons.injEq] at same
      exact absurd same.1 (o.ne o' (by decide))

/-- Up to a token that starts no statement, tokens spell one sequence of statements at most. -/
theorem spellAll_inj : ∀ (ss ss' : List Statement) {t t' : Token} {rest rest' : List Token},
    t.begins = false → t'.begins = false → spellAll ss ++ t :: rest = spellAll ss' ++ t' :: rest' →
      ss = ss' ∧ t = t' ∧ rest = rest'
  | [], [], t, t', rest, rest', ends, ends', same => by
    simp only [spellAll, List.nil_append, List.cons.injEq] at same
    exact ⟨rfl, same⟩
  | [], s' :: ss', t, t', rest, rest', ends, ends', same => by
    obtain ⟨first, more, eq, starts⟩ := s'.exists_spell_eq
    simp only [spellAll, eq, List.nil_append, List.cons_append, List.cons.injEq] at same
    rw [← same.1, ends] at starts
    cases starts
  | s :: ss, [], t, t', rest, rest', ends, ends', same => by
    obtain ⟨first, more, eq, starts⟩ := s.exists_spell_eq
    simp only [spellAll, eq, List.nil_append, List.cons_append, List.cons.injEq] at same
    rw [same.1, ends'] at starts
    cases starts
  | s :: ss, s' :: ss', t, t', rest, rest', ends, ends', same => by
    simp only [spellAll, List.append_assoc] at same
    obtain ⟨rfl, onward⟩ := Statement.spell_inj s s' same
    obtain ⟨rfl, last, after⟩ := spellAll_inj ss ss' ends ends' onward
    exact ⟨rfl, last, after⟩

end

end PinnedStack
