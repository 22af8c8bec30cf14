import PinnedStack.Proofs.Grammar.Items

/-!
# String literals and blocks are statements

* `Token.isText` — a token that is a string literal. `Token.isOuter` — a literal or a keyword that has
  no place in a heading or in a plain definition.
* `Stage.after` — the stage behind tokens. Statements and items lead back to where they start.
* `Stage.Bars`, `Survey.not_bars` — the tokens that have no place in a stage are refused there.
* `Item.Spare`, `Survey.spare_of_ofTokens` — so the items of a text hold blocks and literals in their
  statements only. `Item.Bare` — that is so of string literals.
-/

namespace PinnedStack

open Token (Key Word Atom)

def Token.isText (t : Token) : Bool :=
  match t.kind with
  | .str _ => true
  | .cstr _ => true
  | _ => false

theorem Token.ne_of_isText {t : Token} (text : t.isText = true) :
    t.kind ≠ .word ∧ ∀ k, t.kind ≠ .keyword k := by
  constructor
  · intro kind
    simp [isText, kind] at text
  · intro k kind
    simp [isText, kind] at text

/-- Has a keyword no place in a heading or in a plain definition behind its own keyword? -/
def Keyword.isOuter : Keyword → Bool
  | semicolon | openParen | closeParen | dashes => false
  | _ => true

/-- Has a token no place in a heading or in a plain definition? -/
def Token.isOuter (t : Token) : Bool :=
  match t.kind with
  | .keyword k => k.isOuter
  | _ => t.isText

theorem Token.isOuter_of_isText {t : Token} (text : t.isText = true) : t.isOuter = true := by
  unfold isOuter
  split
  · rename_i k kind
    exact absurd kind ((ne_of_isText text).2 k)
  · exact text

/-- Words, integers and the other keywords may stand there. -/
theorem Token.ne_of_isOuter {t : Token} (outer : t.isOuter = true) :
    t.kind ≠ .word ∧ (∀ v, t.kind ≠ .int v) ∧ ∀ k, k.isOuter = false → t.kind ≠ .keyword k := by
  refine ⟨fun kind => ?_, fun v kind => ?_, fun k inner kind => ?_⟩
  · simp [isOuter, isText, kind] at outer
  · simp [isOuter, isText, kind] at outer
  · simp [isOuter, kind, inner] at outer

/-! ## Stages -/

namespace Stage

/-- The stage behind tokens. -/
def after (stage : Stage) (ts : List Token) : Stage := ts.foldl (fun s t => s.next t.kind) stage

theorem after_append (stage : Stage) (a b : List Token) :
    stage.after (a ++ b) = (stage.after a).after b := List.foldl_append ..

theorem after_cons (stage : Stage) (t : Token) (ts : List Token) :
    stage.after (t :: ts) = (stage.next t.kind).after ts := rfl

/-- Tokens that each leave a stage alone leave it alone together. -/
theorem after_eq_self {stage : Stage} {ts : List Token}
    (each : ∀ t ∈ ts, stage.next t.kind = stage) : stage.after ts = stage := by
  induction ts with
  | nil => rfl
  | cons t ts ih =>
    obtain ⟨first, others⟩ := List.forall_mem_cons.1 each
    rw [after_cons, first, ih others]

/-- A stage in which a statement may start. -/
def Open (stage : Stage) : Prop := stage = .between ∨ ∃ depth, stage = .body (depth + 1)

theorem Open.nested {stage : Stage} (h : stage.Open) {k : Keyword}
    (opens : k = .branch ∨ k = .loop ∨ k = .bind) :
    (stage.next (.keyword k)).Open ∧ (stage.next (.keyword k)).next (.keyword .semicolon) = stage := by
  rcases h with rfl | ⟨depth, rfl⟩ <;> rcases opens with rfl | rfl | rfl <;> simp [next, Open, Form.ofKeyword?]

theorem Open.next_atom {stage : Stage} (h : stage.Open) (t : Atom) : stage.next t.1.kind = stage := by
  cases kind : t.1.kind with
  | keyword k => exact absurd kind (t.2 k)
  | _ => rcases h with rfl | ⟨depth, rfl⟩ <;> rfl

theorem Open.next_middle {stage : Stage} (h : stage.Open) {k : Keyword}
    (middle : k = .otherwise ∨ k = .body ∨ k = .within) : stage.next (.keyword k) = stage := by
  rcases h with rfl | ⟨depth, rfl⟩ <;> rcases middle with rfl | rfl | rfl <;> rfl

mutual

/-- **A statement leads back to the stage that it starts in.** -/
theorem Open.after_statement : ∀ (s : Statement) {stage : Stage}, stage.Open →
    stage.after s.spell = stage
  | .atom t, stage, h => h.next_atom t
  | .ifThen o yes stop, stage, h => by
    obtain ⟨inner, back⟩ := h.nested (k := .branch) (.inl rfl)
    rw [Statement.spell, after_cons, o.2, after_append, Open.after_statements yes inner, after_cons,
      stop.2, back]
    rfl
  | .ifElse o yes middle no stop, stage, h => by
    obtain ⟨inner, back⟩ := h.nested (k := .branch) (.inl rfl)
    rw [Statement.spell, after_cons, o.2, after_append, Open.after_statements yes inner, after_cons,
      middle.2, inner.next_middle (.inl rfl), after_append, Open.after_statements no inner,
      after_cons, stop.2, back]
    rfl
  | .loop o iterator condition middle round stop, stage, h => by
    obtain ⟨inner, back⟩ := h.nested (k := .loop) (.inr (.inl rfl))
    have name := inner.next_atom ⟨iterator.1, by simp [iterator.2]⟩
    rw [Statement.spell, after_cons, o.2, after_cons, name, after_append,
      Open.after_statements condition inner, after_cons, middle.2,
      inner.next_middle (.inr (.inl rfl)), after_append, Open.after_statements round inner,
      after_cons, stop.2, back]
    rfl
  | .bind o names any middle scope stop, stage, h => by
    obtain ⟨inner, back⟩ := h.nested (k := .bind) (.inr (.inr rfl))
    have named : (stage.next (.keyword .bind)).after names.unattach
        = stage.next (.keyword .bind) := by
      refine after_eq_self fun t mem => ?_
      obtain ⟨word, -⟩ := List.mem_unattach.1 mem
      exact inner.next_atom ⟨t, by simp [word]⟩
    rw [Statement.spell, after_cons, o.2, after_append, named, after_cons, middle.2,
      inner.next_middle (.inr (.inr rfl)), after_append, Open.after_statements scope inner,
      after_cons, stop.2, back]
    rfl

theorem Open.after_statements : ∀ (ss : List Statement) {stage : Stage}, stage.Open →
    stage.after (spellAll ss) = stage
  | [], stage, _ => rfl
  | s :: ss, stage, h => by
    rw [spellAll, after_append, Open.after_statement s h, Open.after_statements ss h]

end

/-- A token that has no place in a stage. Outside all definitions and in a body every token has one. -/
def Bars : Stage → Token → Prop
  | plain, t => t.isOuter = true
  | heading, t => t.isOuter = true ∨ t.kind = .keyword .semicolon
  | _, _ => False

theorem Bars.ne_word {stage : Stage} {t : Token} (h : stage.Bars t) : t.kind ≠ .word := by
  cases stage with
  | between | body => exact h.elim
  | plain => exact (Token.ne_of_isOuter h).1
  | heading =>
    rcases h with outer | kind
    · exact (Token.ne_of_isOuter outer).1
    · simp [kind]

/-- The keywords of a signature have their place in it. -/
theorem Bars.ne_keyword {t : Token} {k : Keyword} (h : Stage.Bars heading t)
    (inside : (k.isOuter || k == .semicolon) = false) : t.kind ≠ .keyword k := by
  obtain ⟨inner, other⟩ := Bool.or_eq_false_iff.1 inside
  rcases h with outer | kind
  · exact (Token.ne_of_isOuter outer).2.2 k inner
  · rintro kind'
    cases kind.symm.trans kind'
    cases other

theorem after_plain {text : List Token} (inside : ∀ t ∈ text, t.kind ≠ .keyword .semicolon) :
    Stage.plain.after text = .plain :=
  after_eq_self fun t mem => if_neg (inside t mem)

theorem after_heading {heading : List Token}
    (inside : ∀ t ∈ heading, t.kind ≠ .keyword .closeParen) : Stage.heading.after heading = .heading :=
  after_eq_self fun t mem => if_neg (inside t mem)

theorem next_plain (form : Plain) (opener : Key form.keyword) :
    Stage.between.next opener.1.kind = .plain := by
  rw [opener.2]
  cases form <;> rfl

/-- **An item leads back to the outside.** -/
theorem after_item (item : Item) : Stage.between.after item.spell = .between := by
  cases item with
  | statement s => exact Open.after_statement s (.inl rfl)
  | stray t =>
    rw [Item.spell, after_cons, t.2]
    rfl
  | plain form opener text inside stop =>
    rw [Item.spell, after_cons, next_plain, after_append, after_plain inside, after_cons, stop.2]
    rfl
  | function opener front inside paren code stop =>
    rw [Item.spell, after_cons, opener.2, after_append]
    show (Stage.heading.after front).after _ = _
    rw [after_heading inside, after_cons, paren.2, after_append]
    show ((Stage.body 1).after (spellAll code)).after _ = _
    rw [Open.after_statements code (.inr ⟨0, rfl⟩), after_cons, stop.2]
    rfl

end Stage

/-! ## The first reading -/

theorem Constant.not_isOuter_of_eval {g : Globals} {name : Token} {ts : List Token} {value : Int64}
    (ok : eval g name ts = .ok value) : ∀ t ∈ ts, t.isOuter = false := by
  intro t mem
  obtain ⟨v, kind⟩ | kind := kind_of_run (eval_eq_ok.1 ok) t mem
  all_goals simp [Token.isOuter, Token.isText, kind]

namespace Survey

theorem not_isOuter_of_fieldsOf {g : Globals} {record : String}
    {fields out : List PinnedStack.Field} {ts : List Token}
    (ok : fieldsOf g record fields ts = .ok out) : ∀ t ∈ ts, t.isOuter = false := by
  induction ts generalizing fields with
  | nil => exact nofun
  | cons t ts ih =>
    rw [fieldsOf] at ok
    split at ok
    · rename_i more here
      obtain ⟨_, _, _, _, word, -⟩ := addField_eq_ok.1 here
      exact List.forall_mem_cons.2 ⟨by simp [Token.isOuter, Token.isText, word], ih ok⟩
    · cases ok

theorem not_isOuter_of_regionOf {g : Globals} {name : Token} {ts : List Token} {region : Ty × Nat}
    (ok : regionOf g name ts = .ok region) : ∀ t ∈ ts, t.isOuter = false := by
  obtain ⟨t, r, rfl, word, -, -⟩ | ⟨-, bare⟩ := regionOf_eq_ok.1 ok
  · intro t mem
    obtain rfl := List.mem_singleton.1 mem
    simp [Token.isOuter, Token.isText, word]
  · obtain ⟨size, valued, -, -⟩ := bareRegion_eq_ok.1 bare
    exact Constant.not_isOuter_of_eval valued

variable {s next out : Survey} {t : Token} {ts : List Token} {plain : Plain} {naming : Naming}
  {tokens : List Token}

theorem not_isOuter_of_definePlain {name : Token} (ok : s.definePlain plain name tokens = .ok next) :
    ∀ t ∈ tokens, t.isOuter = false := by
  obtain ⟨supply, meaning, globals, yields, -, -⟩ := definePlain_eq_ok.1 ok
  cases yields with
  | record spelled =>
    obtain ⟨fields, listed, -, -⟩ := recordOf_eq_ok.1 spelled
    exact not_isOuter_of_fieldsOf listed
  | constant valued => exact Constant.not_isOuter_of_eval valued
  | memory sized => exact not_isOuter_of_regionOf sized

/-- With any other token in it a plain definition is never left. -/
theorem phase_ne_between_of_collecting (phase : s.phase = .collecting plain naming tokens)
    (mem : t ∈ tokens) (outer : t.isOuter = true) (ok : s.run ts = .ok out) :
    out.phase ≠ .between := by
  induction ts generalizing s tokens with
  | nil =>
    cases ok
    rw [phase]
    exact nofun
  | cons u ts ih =>
    rw [run] at ok
    split at ok
    case h_2 => cases ok
    rename_i next here
    obtain ⟨p, n, held, phase', -, defined, -⟩ | ⟨n, c, ps, phase', -⟩ | ⟨after, advanced, rfl, -⟩ :=
      step_cases here
    · cases phase.symm.trans phase'
      have none := not_isOuter_of_definePlain defined t (List.mem_reverse.2 mem)
      rw [outer] at none
      cases none
    · cases phase.symm.trans phase'
    · rw [phase] at advanced
      cases advanced
      exact ih rfl (List.mem_cons_of_mem _ mem) ok

/-- Tokens take the first reading through their stages. -/
theorem run_stage (ok : s.run ts = .ok out) : out.phase.stage = s.phase.stage.after ts := by
  induction ts generalizing s with
  | nil =>
    cases ok
    rfl
  | cons t ts ih =>
    rw [run] at ok
    split at ok
    · rename_i next here
      rw [ih ok, (step_stage here).1]
      rfl
    · cases ok

/-- **No token stands where it has no place.** -/
theorem not_bars {front rest : List Token} (ok : s.run (front ++ t :: rest) = .ok out)
    (done : out.phase = .between) : ¬ (s.phase.stage.after front).Bars t := by
  intro bars
  rw [run_append] at ok
  obtain ⟨middle, first, ok⟩ := Except.bind_eq_ok.1 ok
  rw [← run_stage first] at bars
  rw [run] at ok
  split at ok
  case h_2 => cases ok
  rename_i next here
  have word := bars.ne_word
  obtain ⟨p, n, held, phase, kind, -⟩ | ⟨n, c, ps, phase, -⟩ | ⟨after, advanced, rfl, -⟩ :=
    step_cases here
  · rw [phase] at bars
    exact (Token.ne_of_isOuter bars).2.2 _ rfl kind
  · rw [phase] at bars
    exact bars
  generalize middle.phase = phase at bars advanced
  cases advance_eq_ok.1 advanced with
  | between | opener | block | semicolon | inside => exact bars
  | plainName named | functionName named | namedInput named | anonymousInput named | output named =>
    exact word named
  | collected => exact phase_ne_between_of_collecting rfl (List.mem_cons_self ..) bars ok done
  | openParen kind | dashes kind | anonymous kind | named _ kind =>
    exact bars.ne_keyword rfl kind

end Survey

/-! ## Items -/

/-- An item with string literals in its statements only. -/
def Item.Bare : Item → Prop
  | .plain _ _ text _ _ => ∀ t ∈ text, t.isText = false
  | .function _ heading _ _ _ _ => ∀ t ∈ heading, t.isText = false
  | _ => True

/-- An item with nothing in a heading or in a plain definition that has no place there. -/
def Item.Spare : Item → Prop
  | .plain _ _ text _ _ => ∀ t ∈ text, ¬ Stage.plain.Bars t
  | .function _ heading _ _ _ _ => ∀ t ∈ heading, ¬ Stage.heading.Bars t
  | _ => True

theorem Item.Spare.bare {item : Item} (h : item.Spare) : item.Bare := by
  cases item with
  | plain form opener text inside stop =>
    exact fun t mem => Bool.eq_false_iff.2 fun text => h t mem (Token.isOuter_of_isText text)
  | function opener heading inside paren body stop =>
    exact fun t mem => Bool.eq_false_iff.2 fun text => h t mem (.inl (Token.isOuter_of_isText text))
  | statement | stray => trivial

theorem Item.spare_of_stages {items : List Item}
    (each : ∀ front t rest, items.flatMap Item.spell = front ++ t :: rest →
      ¬ (Stage.between.after front).Bars t) : ∀ item ∈ items, item.Spare := by
  induction items with
  | nil => exact List.forall_mem_nil _
  | cons item items ih =>
    refine List.forall_mem_cons.2 ⟨?_, ih fun front t rest eq => ?_⟩
    · cases item with
      | statement | stray => trivial
      | plain form opener text inside stop =>
        intro t mem
        obtain ⟨a, b, rfl⟩ := List.append_of_mem mem
        have stage : Stage.between.after (opener.1 :: a) = .plain := by
          rw [Stage.after_cons, Stage.next_plain]
          exact Stage.after_plain fun u held => inside u (List.mem_append_left _ held)
        have here := each (opener.1 :: a) t (b ++ stop.1 :: items.flatMap Item.spell)
          (by simp [Item.spell])
        rwa [stage] at here
      | function opener heading inside paren body stop =>
        intro t mem
        obtain ⟨a, b, rfl⟩ := List.append_of_mem mem
        have stage : Stage.between.after (opener.1 :: a) = .heading := by
          rw [Stage.after_cons, opener.2]
          exact Stage.after_heading fun u held => inside u (List.mem_append_left _ held)
        have here := each (opener.1 :: a) t
          (b ++ paren.1 :: (spellAll body ++ stop.1 :: items.flatMap Item.spell))
          (by simp [Item.spell])
        rwa [stage] at here
    · have here := each (item.spell ++ front) t rest
        (by rw [List.flatMap_cons, eq, List.append_assoc])
      rwa [Stage.after_append, Stage.after_item] at here

/-- **The items of a text hold blocks and string literals in their statements only.** -/
theorem Survey.spare_of_ofTokens {limits : Limits} {text : Scanned} {s : Survey} {items : List Item}
    (ok : ofTokens limits text = .ok s) (spelled : text.tokens = items.flatMap Item.spell) :
    ∀ item ∈ items, item.Spare := by
  obtain ⟨whole, between⟩ := ofTokens_eq_ok ok
  exact Item.spare_of_stages fun front t rest eq =>
    not_bars (s := start limits) (by rw [← eq, ← spelled]; exact whole) between

end PinnedStack
