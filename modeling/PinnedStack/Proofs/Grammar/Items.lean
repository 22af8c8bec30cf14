import PinnedStack.Proofs.Grammar.Blocks
import PinnedStack.Proofs.Tree.Linking

/-!
# Whole texts

* `Item` — a statement or a definition outside all blocks, with all its tokens.
* `BindsParams` — the named inputs of a function are bound from left to right.
* `Elaborates` — the functions and the main code that items stand for. Each body starts with the
  inputs of its function in scope and nothing else, the main code with nothing.
* `Reader.exists_items` — what the second reading reads is items.
* `Program.elaborates_of_ofTokens` — a program is what the items of its text stand for.
-/

namespace PinnedStack

open Token (Key Word Atom)

/-- What stands outside all blocks, with all its tokens. -/
inductive Item where
  | statement (statement : Statement)
  | stray (token : Key .semicolon)
  | plain (form : Plain) (opener : Key form.keyword) (text : List Token)
      (inside : ∀ t ∈ text, t.kind ≠ .keyword .semicolon) (stop : Key .semicolon)
  | function (opener : Key .colon) (heading : List Token)
      (inside : ∀ t ∈ heading, t.kind ≠ .keyword .closeParen) (paren : Key .closeParen)
      (body : List Statement) (stop : Key .semicolon)

def Item.spell : Item → List Token
  | statement s => s.spell
  | stray token => [token.1]
  | plain _ opener text _ stop => opener.1 :: (text ++ [stop.1])
  | function opener heading _ paren body stop =>
      opener.1 :: (heading ++ paren.1 :: (spellAll body ++ [stop.1]))

/-- The named inputs of a function are bound from left to right. -/
inductive BindsParams : Supply → List (String × Ty) → List Pin → Supply → Prop where
  | nil (s : Supply) : BindsParams s [] [] s
  | cons {s next : Supply} {name : String} {ty : Ty} {params : List (String × Ty)} {pins : List Pin}
      (room : s.nextSlot + ty.width ≤ s.book.capacity)
      (others : BindsParams (s.enter ⟨name, ty, s.nextSlot⟩) params pins next) :
      BindsParams s ((name, ty) :: params) (⟨name, ty, s.nextSlot⟩ :: pins) next

/-- The function with the given inputs and body, read between two slots. -/
def Head.func (h : Head) (pins : List Pin) (body : List Node) (first stop : Nat) : Func :=
  { label := h.signature.label
    name := h.name
    contract := h.signature.contract
    named := h.signature.params.isSome
    body := Reader.pinNodes pins h.place ++ body ++ Reader.unpinNodes pins h.place
    firstSlot := first
    endSlot := stop
    place := h.place }

/-- The functions and the main code that items stand for, given what was handed out before them, and
what was handed out behind them. Each function has been recorded. -/
inductive Elaborates (g : Globals) :
    Supply → List Head → List Item → List Func → List Node → Supply → Prop where
  | nil (s : Supply) : Elaborates g s [] [] [] [] s
  | statement {s middle last : Supply} {heads : List Head} {st : Statement} {items : List Item}
      {fs : List Func} {nodes main : List Node} (built : Builds g s [st] nodes middle)
      (after : Elaborates g middle heads items fs main last) :
      Elaborates g s heads (.statement st :: items) fs (nodes ++ main) last
  | stray {s last : Supply} {heads : List Head} {token : Key .semicolon} {items : List Item}
      {fs : List Func} {main : List Node} (after : Elaborates g s heads items fs main last) :
      Elaborates g s heads (.stray token :: items) fs main last
  | plain {s last : Supply} {heads : List Head} {form : Plain} {opener : Key form.keyword}
      {text : List Token} {inside : ∀ t ∈ text, t.kind ≠ .keyword .semicolon}
      {stop : Key .semicolon} {items : List Item} {fs : List Func} {main : List Node}
      (after : Elaborates g s heads items fs main last) :
      Elaborates g s heads (.plain form opener text inside stop :: items) fs main last
  | function {s entered middle last : Supply} {head : Head} {heads : List Head}
      {opener : Key .colon} {heading : List Token}
      {inside : ∀ t ∈ heading, t.kind ≠ .keyword .closeParen} {paren : Key .closeParen}
      {body : List Statement} {stop : Key .semicolon} {items : List Item} {pins : List Pin}
      {nodes main : List Node} {fs : List Func}
      (bound : BindsParams s (head.signature.params.getD []) pins entered)
      (built : Builds g entered body nodes middle)
      (after : Elaborates g (middle.leave s.book.live) heads items fs main last) :
      Elaborates g s (head :: heads) (.function opener heading inside paren body stop :: items)
        (head.func pins nodes s.nextSlot middle.nextSlot :: fs) main last

theorem BindsParams.live_eq {s next : Supply} {params : List (String × Ty)} {pins : List Pin}
    (h : BindsParams s params pins next) : next.book.live = pins.reverse ++ s.book.live := by
  induction h with
  | nil => rfl
  | cons _ _ ih => simp [ih, Supply.enter]

/-- Statements in a row stand for what they stand for one by one. -/
theorem Builds.cons_inv {g : Globals} {s last : Supply} {st : Statement} {ss : List Statement}
    {nodes : List Node} (h : Builds g s (st :: ss) nodes last) :
    ∃ first middle others, Builds g s [st] first middle ∧ Builds g middle ss others last
      ∧ nodes = first ++ others := by
  cases h with
  | atom here after => exact ⟨_, _, _, .atom here (.nil _), after, rfl⟩
  | ifThen inner after => exact ⟨_, _, _, .ifThen inner (.nil _), after, rfl⟩
  | ifNo left right after => exact ⟨_, _, _, .ifNo left right (.nil _), after, rfl⟩
  | ifBoth left right after => exact ⟨_, _, _, .ifBoth left right (.nil _), after, rfl⟩
  | loop bound left right after => exact ⟨_, _, _, .loop bound left right (.nil _), after, rfl⟩
  | bind bound within after => exact ⟨_, _, _, .bind bound within (.nil _), after, by simp⟩

theorem Elaborates.statements {g : Globals} {s middle last : Supply} {ss : List Statement}
    {nodes main : List Node} {heads : List Head} {items : List Item} {fs : List Func}
    (built : Builds g s ss nodes middle) (after : Elaborates g middle heads items fs main last) :
    Elaborates g s heads (ss.map .statement ++ items) fs (nodes ++ main) last := by
  induction ss generalizing s nodes with
  | nil =>
    cases built
    exact after
  | cons st ss ih =>
    obtain ⟨first, next, others, here, rest, rfl⟩ := built.cons_inv
    rw [List.append_assoc]
    exact .statement here (ih rest)

theorem spell_statements (ss : List Statement) :
    (ss.map Item.statement).flatMap Item.spell = spellAll ss := by
  induction ss with
  | nil => rfl
  | cons st ss ih => simpa [spellAll, Item.spell] using ih

theorem Elaborates.length_eq {g : Globals} {s last : Supply} {heads : List Head}
    {items : List Item} {fs : List Func} {main : List Node}
    (h : Elaborates g s heads items fs main last) : fs.length = heads.length := by
  induction h with
  | nil => rfl
  | statement _ _ ih => exact ih
  | stray _ ih => exact ih
  | plain _ ih => exact ih
  | function _ _ _ ih => simp [ih]

namespace Reader

variable {g : Globals} {r out : Reader} {s next : Supply}

theorem bindsParams_of_eq_ok {place : Place} {params : List (String × Ty)} {pins : List Pin}
    (ok : bindParams s place params = .ok (pins, next)) : BindsParams s params pins next := by
  induction params generalizing s pins with
  | nil =>
    cases ok
    exact .nil _
  | cons param params ih =>
    obtain ⟨name, ty⟩ := param
    unfold bindParams at ok
    split at ok
    · cases ok
    · rename_i p middle here
      split at ok
      · rename_i rest
        cases ok
        obtain ⟨rfl, room, rfl⟩ := pin_eq_ok.1 here
        exact .cons room (ih rest)
      · cases ok

/-- A plain definition is read up to its `;`. -/
theorem exists_plain {ts : List Token} (phase : r.phase = .plain) (ok : run g r ts = .ok out)
    (done : out.phase = .statement) : ∃ text, ∃ stop : Key .semicolon, ∃ rest,
      ts = text ++ stop.1 :: rest ∧ (∀ t ∈ text, t.kind ≠ .keyword .semicolon)
        ∧ run g { r with phase := .statement } rest = .ok out := by
  induction ts with
  | nil =>
    cases ok
    rw [phase] at done
    cases done
  | cons t ts ih =>
    rw [run] at ok
    unfold step at ok
    rw [phase] at ok
    by_cases last : t.kind = .keyword .semicolon
    · simp only [last, if_true] at ok
      exact ⟨[], ⟨t, last⟩, ts, rfl, by simp, ok⟩
    · simp only [last, if_false] at ok
      obtain ⟨text, stop, rest, rfl, inside, onward⟩ := ih ok
      exact ⟨t :: text, stop, rest, rfl, List.forall_mem_cons.2 ⟨last, inside⟩, onward⟩

/-- The head of a function is read up to its `)`. -/
theorem exists_heading {ts : List Token} {head : Head} {opener : Place}
    (phase : r.phase = .head head opener) (ok : run g r ts = .ok out)
    (done : out.phase = .statement) : ∃ heading, ∃ paren : Key .closeParen, ∃ rest entered,
      ts = heading ++ paren.1 :: rest ∧ (∀ t ∈ heading, t.kind ≠ .keyword .closeParen)
        ∧ r.openFunction head opener = .ok entered ∧ run g entered rest = .ok out := by
  induction ts with
  | nil =>
    cases ok
    rw [phase] at done
    cases done
  | cons t ts ih =>
    rw [run] at ok
    unfold step at ok
    rw [phase] at ok
    by_cases last : t.kind = .keyword .closeParen
    · simp only [last, if_true] at ok
      split at ok
      · rename_i entered here
        exact ⟨[], ⟨t, last⟩, ts, entered, rfl, by simp, here, ok⟩
      · cases ok
    · simp only [last, if_false] at ok
      obtain ⟨heading, paren, rest, entered, rfl, inside, opened, onward⟩ := ih ok
      exact ⟨t :: heading, paren, rest, entered, rfl, List.forall_mem_cons.2 ⟨last, inside⟩, opened,
        onward⟩

/-- The end of a function hands it on. -/
theorem keyword_function (blocks : r.blocks = []) (phase : r.phase = .statement) (head : Head)
    (opener place : Place) (first : Nat) {pins scope : List Pin} (body : List Node)
    (live : s.book.live = pins.reverse ++ scope) :
    (r.within s (.function head opener first pins) (pinNodes pins head.place ++ body)).keyword
        .semicolon place
      = .ok { r with
          supply := s.leave scope
          functions := r.functions ++ [head.func pins body first s.nextSlot] } := by
  rw [← unpinAll_eq_leave live]
  obtain ⟨_, _, _, _, _, _⟩ := r
  cases phase
  cases blocks
  rfl

/-- What is read from one point outside all blocks to another is items. -/
def Itemized (g : Globals) (r : Reader) (ts : List Token) (out : Reader) : Prop :=
  ∃ items used fs main, ts = items.flatMap Item.spell ∧ r.heads = used ++ out.heads
    ∧ Elaborates g r.supply used items fs main out.supply ∧ out.functions = r.functions ++ fs
    ∧ out.main = r.main ++ main

theorem Itemized.statements {ss : List Statement} {nodes : List Node} {last : Supply}
    {ts : List Token} (built : Builds g r.supply ss nodes last)
    (h : Itemized g { r with supply := last, main := r.main ++ nodes } ts out) :
    Itemized g r (spellAll ss ++ ts) out := by
  obtain ⟨items, used, fs, main, rfl, heads, after, functions, code⟩ := h
  refine ⟨ss.map .statement ++ items, used, fs, nodes ++ main, ?_, heads, .statements built after,
    functions, by simpa using code⟩
  rw [List.flatMap_append, spell_statements]

theorem Itemized.stray {ts : List Token} (h : Itemized g r ts out) (t : Key .semicolon) :
    Itemized g r (t.1 :: ts) out := by
  obtain ⟨items, used, fs, main, rfl, heads, after, functions, code⟩ := h
  exact ⟨.stray t :: items, used, fs, main, rfl, heads, .stray after, functions, code⟩

theorem Itemized.plain {ts text : List Token} {form : Plain} (h : Itemized g r ts out)
    (opener : Key form.keyword) (inside : ∀ t ∈ text, t.kind ≠ .keyword .semicolon)
    (stop : Key .semicolon) : Itemized g r (opener.1 :: (text ++ stop.1 :: ts)) out := by
  obtain ⟨items, used, fs, main, rfl, heads, after, functions, code⟩ := h
  exact ⟨.plain form opener text inside stop :: items, used, fs, main, by simp [Item.spell], heads,
    .plain after, functions, code⟩

theorem Itemized.function {ts heading : List Token} {head : Head} {ahead : List Head}
    {pins : List Pin} {body : List Statement} {nodes : List Node} {entered middle : Supply}
    (heads : r.heads = head :: ahead)
    (bound : BindsParams r.supply (head.signature.params.getD []) pins entered)
    (built : Builds g entered body nodes middle)
    (h : Itemized g { r with
      heads := ahead
      supply := middle.leave r.supply.book.live
      functions := r.functions ++ [head.func pins nodes r.supply.nextSlot middle.nextSlot] } ts out)
    (opener : Key .colon) (inside : ∀ t ∈ heading, t.kind ≠ .keyword .closeParen)
    (paren : Key .closeParen) (stop : Key .semicolon) :
    Itemized g r (opener.1 :: (heading ++ paren.1 :: (spellAll body ++ stop.1 :: ts))) out := by
  obtain ⟨items, used, fs, main, rfl, more, after, functions, code⟩ := h
  refine ⟨.function opener heading inside paren body stop :: items, head :: used, _ :: fs, main,
    by simp [Item.spell], ?_, .function bound built after, by simpa using functions, code⟩
  rw [heads, List.cons_append]
  exact congrArg _ more

/-- An item that starts with another token than a statement, where the tokens behind it are items. -/
theorem itemized_of_stop {n : Nat} {t : Token} {ts : List Token}
    (ih : ∀ {ts : List Token} {r : Reader}, ts.length ≤ n → r.phase = .statement → r.blocks = [] →
      run g r ts = .ok out → Itemized g r ts out)
    (fewer : ts.length ≤ n) (phase : r.phase = .statement) (blocks : r.blocks = [])
    (stop : t.begins = false) (ok : run g r (t :: ts) = .ok out) (done : out.phase = .statement)
    (outside : out.blocks = []) : Itemized g r (t :: ts) out := by
  have starts : ∀ {k}, t.kind = .keyword k → (k == .branch || k == .loop || k == .bind) = false :=
    fun kind => (Key.begins_eq ⟨t, kind⟩).symm.trans stop
  rw [run] at ok
  split at ok
  case h_2 => cases ok
  rename_i q here
  cases step_moves (g := g) here with
  | leaf _ plain =>
    rw [Atom.begins ⟨t, plain⟩] at stop
    cases stop
  | branch _ kind | loop _ kind | bind _ kind => cases starts kind
  | close _ _ some | otherwise _ _ some | body _ _ some => cases blocks.symm.trans some
  | inHead other | headDone other | inPlain other | plainDone other | iterator other | name other
  | within other => cases phase.symm.trans other
  | stray _ kind => exact .stray (ih fewer phase blocks ok) ⟨t, kind⟩
  | definition phase' kind form blocks' =>
    rename_i k plain
    obtain ⟨text, last, rest, rfl, inside, onward⟩ := exists_plain rfl ok done
    have fewer : rest.length ≤ n := by
      simp only [List.length_append, List.length_cons] at fewer
      omega
    have opener : k = plain.keyword := by cases k <;> cases form <;> rfl
    subst opener
    have items := ih (r := { r with phase := .statement }) fewer rfl blocks onward
    exact Itemized.plain (r := r) items ⟨t, kind⟩ inside last
  | function phase' kind blocks' heads =>
    rename_i head ahead
    obtain ⟨heading, paren, rest, entered, rfl, inside, opened, onward⟩ :=
      exists_heading rfl ok done
    obtain ⟨pins, supply, bound, rfl⟩ := openFunction_eq_ok.1 opened
    -- The body has to end, since no block is open where the text does.
    have splits := exists_builds rest.length (Nat.le_refl _) rfl onward done (by simp [outside])
    let q : Reader := { r with heads := ahead, phase := .statement }
    obtain ⟨body, nodes, middle, k, rest, m, built, ends, rfl, next, closed, onward⟩ :=
      Splits.blockEnds (q := q) splits onward (by simp [outside])
    obtain rfl := List.mem_singleton.1 ends
    have params := bindsParams_of_eq_ok bound
    have live := built.live_eq.trans params.live_eq
    cases (keyword_function (r := q) blocks rfl head t.place m.1.place r.supply.nextSlot nodes
      live).symm.trans closed
    have fewer : rest.length ≤ n := by
      simp only [List.length_append, List.length_cons] at fewer
      omega
    have items := ih (r := { q with
      supply := middle.leave r.supply.book.live
      functions := r.functions ++ [head.func pins nodes r.supply.nextSlot middle.nextSlot] })
      fewer rfl blocks onward
    exact .function heads params built items ⟨t, kind⟩ inside paren m

/-- What is read outside all blocks, from there on to the end of the text, is items. -/
theorem exists_items (n : Nat) : ∀ {ts : List Token} {r : Reader}, ts.length ≤ n →
    r.phase = .statement → r.blocks = [] → run g r ts = .ok out → out.phase = .statement →
    out.blocks = [] → Itemized g r ts out := by
  induction n with
  | zero =>
    intro ts r short phase blocks ok done outside
    obtain rfl := List.eq_nil_of_length_eq_zero (Nat.le_zero.1 short)
    cases ok
    exact ⟨[], [], [], [], rfl, rfl, .nil _, by simp, by simp⟩
  | succ n ih =>
    intro ts r short phase blocks ok done outside
    obtain ⟨ss, nodes, last, builds, eq⟩ :=
      exists_builds ts.length (Nat.le_refl _) phase ok done (by simp [outside])
    have read := run_of_builds builds phase
    have added : r.after last nodes = { r with supply := last, main := r.main ++ nodes } := by
      simp [after, add, blocks]
    rcases eq with rfl | ⟨t, rest, stop, rfl⟩
    · have all := read []
      rw [List.append_nil, ok, added] at all
      cases all
      refine List.append_nil (spellAll ss) ▸ Itemized.statements builds ?_
      exact ⟨[], [], [], [], rfl, rfl, .nil _, by simp, by simp⟩
    · rw [read, added] at ok
      have fewer : rest.length ≤ n := by
        simp only [List.length_append, List.length_cons] at short
        omega
      exact .statements builds (itemized_of_stop (fun short phase blocks ok =>
        ih short phase blocks ok done outside) fewer phase blocks stop ok done outside)

end Reader

/-- **A program is what the items of its text stand for.** -/
theorem Program.elaborates_of_ofTokens {limits : Limits} {text : Scanned} {p : Program}
    {tables : Tables} (ok : Program.ofTokens limits text = .ok (p, tables)) :
    ∃ survey items last, Survey.ofTokens limits text = .ok survey
      ∧ text.tokens = items.flatMap Item.spell
      ∧ Elaborates survey.globals survey.supply survey.heads items p.functions p.main.body last
      ∧ last.tables = tables := by
  obtain ⟨survey, first, -, describes⟩ := readings_of_ofTokens ok
  obtain ⟨other, r, first', second, finished, rfl, rfl⟩ := ofTokens_eq_ok ok
  cases first.symm.trans first'
  obtain ⟨phase, blocks⟩ := Reader.outside_of_readings first second finished
  obtain ⟨items, used, fs, main, spelled, heads, elaborates, functions, code⟩ :=
    Reader.exists_items _ (Nat.le_refl _) rfl rfl second phase blocks
  -- Every function that was recorded has been read.
  have all : survey.heads = used := by
    have count := describes.length_eq
    have lengths := congrArg List.length heads
    simp only [functions, Reader.start, List.nil_append, List.length_append,
      elaborates.length_eq] at count lengths
    have rest : r.heads = [] := List.eq_nil_of_length_eq_zero (by omega)
    simpa [rest, Reader.start] using heads
  rw [← all] at elaborates
  refine ⟨survey, items, r.supply, first, spelled, ?_, rfl⟩
  obtain rfl : r.functions = fs := functions
  obtain rfl : r.main = main := code
  exact elaborates

end PinnedStack
