import PinnedStack.Proofs.Grammar.Literals
import PinnedStack.Proofs.Machine.Operators
import PinnedStack.Proofs.Source.Partition
import PinnedStack.Proofs.Text.Data

/-!
# String literals, from the source to the data section

* `encoded`, `Literal.data` — the bytes of characters, and those that a literal puts into the data.
* `Token.Loads`, `Builds.loads`, `Program.loads` — each string literal has its node, whose label has
  the bytes of the literal in the tables.
* `Token.Loads.runs` — the code of the node pushes the length, where there is one, and the address.
* `Literal.exists_letters`, `Letter.Means.unique` — any characters can be spelled, and a spelling
  stands for one sequence only.
* `Literal.Kept`, `literals_kept` — all of this for the literals of a text.
-/

namespace PinnedStack

open Asm
open Token (Key)

/-! ## Bytes -/

def encoded (chars : List Char) : List UInt8 := chars.flatMap String.utf8EncodeChar

theorem utf8Bytes_ofList (chars : List Char) : utf8Bytes (String.ofList chars) = encoded chars := by
  simp [utf8Bytes, encoded, List.utf8Encode]

/-- The bytes that a literal puts into the data. A zero ends those of `c"…"`. -/
def Literal.data (form : Literal) (chars : List Char) : List UInt8 :=
  if form = .cstr then encoded chars ++ [0] else encoded chars

/-- What the token of a string literal is. -/
def Literal.kind (form : Literal) (chars : List Char) : Token.Kind :=
  if form = .cstr then .cstr (String.ofList chars) else .str (String.ofList chars)

theorem Literal.isText_of_kind {t : Token} {chars : List Char} (form : Literal)
    (kind : t.kind = form.kind chars) : t.isText = true := by
  unfold Literal.kind at kind
  split at kind <;> simp [Token.isText, kind]

/-- The words that a literal pushes, the topmost last: the number of its bytes, unless a zero ends
them, and the address of the first. -/
def Literal.words (form : Literal) (chars : List Char) (address : Word) : List Word :=
  if form = .cstr then [address] else [BitVec.ofNat 64 (encoded chars).length, address]

/-! ## Spellings -/

/-- The characters that a letter stands for are told apart by it. -/
theorem Letter.Means.unique {quote : Char} {letter : Letter} {c d : Char}
    (first : letter.Means quote c) (second : letter.Means quote d) : c = d := by
  cases first with
  | plain =>
    cases second
    rfl
  | escaped listed =>
    cases second with
    | escaped listed' =>
      rw [← unescape?_eq_some_iff] at listed listed'
      exact Option.some.inj (listed.symm.trans listed')

theorem Letter.means_unique {quote : Char} {letters : List Letter} {cs ds : List Char}
    (first : List.Forall₂ (Means quote) letters cs) (second : List.Forall₂ (Means quote) letters ds) :
    cs = ds := by
  induction first generalizing ds with
  | nil =>
    cases second
    rfl
  | cons here _ ih =>
    cases second with
    | cons here' others => rw [here.unique here', ih others]

/-- **Any characters can be spelled between quotes.** -/
theorem Literal.exists_letters (form : Literal) (chars : List Char) :
    ∃ letters, List.Forall₂ (Letter.Means form.quote) letters chars := by
  induction chars with
  | nil => exact ⟨[], .nil⟩
  | cons c chars ih =>
    obtain ⟨letters, means⟩ := ih
    by_cases quote : c = form.quote
    · refine ⟨.escaped c :: letters, .cons (.escaped ?_) means⟩
      subst quote
      cases form <;> decide
    · by_cases backslash : c = '\\'
      · subst backslash
        exact ⟨.escaped '\\' :: letters, .cons (.escaped (by decide)) means⟩
      · exact ⟨.plain c :: letters, .cons (.plain quote backslash) means⟩

theorem Partition.makes {file : String} {before text : List Char} {pieces : List Piece}
    {tokens : List Token} (parts : Partition file before text pieces tokens) :
    List.Forall₂ (fun p t => ∃ place, Piece.Makes place p t) pieces tokens := by
  induction parts with
  | stop => exact .nil
  | blank _ _ ih => exact ih
  | comment _ _ ih => exact ih
  | lastComment => exact .nil
  | piece makes _ _ ih => exact .cons ⟨_, makes⟩ ih

theorem Partition.tokens_eq {source file : String} {pieces : List Piece} {tokens : List Token}
    {text : Scanned} (parts : Partition file [] source.toList pieces tokens)
    (lexed : Scanned.ofText source file = .ok text) : text.tokens = tokens := by
  obtain ⟨last, run, finish⟩ := Scanner.run_of_partition [] parts
  have start : Scanner.start file = ⟨[], .gap, .behind file []⟩ := rfl
  rw [Scanned.ofText, start, run] at lexed
  cases lexed.symm.trans finish
  rfl

/-- The token of a string literal holds the characters that it stands for. -/
theorem Piece.Makes.kind {place : Place} {form : Literal} {letters : List Letter} {chars : List Char}
    {t : Token} (makes : (Piece.literal form letters).Makes place t) (string : form ≠ .char)
    (means : List.Forall₂ (Letter.Means form.quote) letters chars) : t.kind = form.kind chars := by
  cases makes with
  | str means' =>
    rw [Letter.means_unique means' means]
    rfl
  | cstr means' =>
    rw [Letter.means_unique means' means]
    rfl
  | char => exact absurd rfl string

/-! ## Nodes -/

/-- The node of a string literal, whose label has the bytes of the literal in the tables. -/
inductive Token.Loads (tables : Tables) (t : Token) : String → Node → Prop where
  | str {text label : String} (kind : t.kind = .str text)
      (held : (label, utf8Bytes text) ∈ tables.labelledLiterals) :
      Loads tables t label (.op (.string label (utf8Bytes text).length) t.place)
  | cstr {text label : String} (kind : t.kind = .cstr text)
      (held : (label, utf8Bytes text ++ [0]) ∈ tables.labelledLiterals) :
      Loads tables t label (.op (.cstring label) t.place)

/-- A string literal has its node in a body. -/
def Token.LoadedIn (tables : Tables) (nodes : List Node) (t : Token) : Prop :=
  ∃ label, ∃ n ∈ nodesIn nodes, t.Loads tables label n

section Bodies

variable {tables more : Tables} {nodes xs ys : List Node} {t : Token} {g : Globals}
  {s next : Supply} {label : String} {node : Node}

theorem Token.Loads.mono (h : t.Loads tables label node) (grows : tables.Grows more) :
    t.Loads more label node := by
  cases h with
  | str kind held => exact .str kind (grows.labelled held)
  | cstr kind held => exact .cstr kind (grows.labelled held)

theorem Token.LoadedIn.mono (h : t.LoadedIn tables nodes) (grows : tables.Grows more) :
    t.LoadedIn more nodes := by
  obtain ⟨label, n, mem, loads⟩ := h
  exact ⟨label, n, mem, loads.mono grows⟩

theorem Token.LoadedIn.within (h : t.LoadedIn tables nodes) (inside : nodesIn nodes ⊆ nodesIn xs) :
    t.LoadedIn tables xs := by
  obtain ⟨label, n, mem, loads⟩ := h
  exact ⟨label, n, inside mem, loads⟩

theorem Token.not_loadedIn_nil : ¬ t.LoadedIn tables [] := nofun

theorem Token.Key.isText_eq {k : Keyword} (t : Key k) : t.1.isText = false := by
  simp [Token.isText, t.2]

theorem Token.Word.isText_eq (t : Token.Word) : t.1.isText = false := by
  simp [Token.isText, t.2]

theorem Leaf.loads (h : Leaf g s t node next) (text : t.isText = true) :
    ∃ label, t.Loads next.tables label node := by
  cases h with
  | number kind => simp [Token.isText, kind] at text
  | string kind => exact ⟨_, .str kind (s.labelled_literal _).1⟩
  | cstring kind => exact ⟨_, .cstr kind (s.labelled_literal _).1⟩
  | word kind => simp [Token.isText, kind] at text

/-- **Each string literal among statements has its node among theirs.** -/
theorem Builds.loads {ss : List Statement} (h : Builds g s ss nodes next) :
    ∀ t ∈ spellAll ss, t.isText = true → t.LoadedIn next.tables nodes := by
  have never : ∀ {k : Keyword} {t : Key k}, t.1.isText = true → False := fun {_ t} text => by
    rw [t.isText_eq] at text
    cases text
  induction h with
  | nil => exact List.forall_mem_nil _
  | @atom _ _ _ _ _ node _ here after ih =>
    simp only [spellAll, Statement.spell, List.forall_mem_append, List.forall_mem_cons]
    refine ⟨⟨fun text => ?_, List.forall_mem_nil _⟩, fun t mem text => (ih t mem text).within ?_⟩
    · obtain ⟨label, loads⟩ := here.loads text
      refine ⟨label, node, List.mem_append_left _ ?_, loads.mono after.grows⟩
      cases loads <;> exact List.mem_singleton_self _
    · exact List.subset_append_right _ _
  | ifThen inner after ihInner ihAfter =>
    simp only [spellAll, Statement.spell, List.forall_mem_append, List.forall_mem_cons]
    refine ⟨⟨fun text => (never text).elim, fun t mem text => ?_,
      fun text => (never text).elim, List.forall_mem_nil _⟩,
      fun t mem text => (ihAfter t mem text).within (List.subset_append_right _ _)⟩
    exact ((ihInner t mem text).mono after.grows).within fun n held =>
      List.mem_append_left _ (List.mem_cons_of_mem _ held)
  | ifNo left right after ihLeft ihRight ihAfter =>
    simp only [spellAll, Statement.spell, List.forall_mem_append, List.forall_mem_cons]
    refine ⟨⟨fun text => (never text).elim,
      fun t mem text => absurd (ihLeft t mem text) Token.not_loadedIn_nil,
      fun text => (never text).elim, fun t mem text => ?_,
      fun text => (never text).elim, List.forall_mem_nil _⟩,
      fun t mem text => (ihAfter t mem text).within (List.subset_append_right _ _)⟩
    exact ((ihRight t mem text).mono after.grows).within fun n held =>
      List.mem_append_left _ (List.mem_cons_of_mem _ held)
  | ifBoth left right after ihLeft ihRight ihAfter =>
    simp only [spellAll, Statement.spell, List.forall_mem_append, List.forall_mem_cons]
    refine ⟨⟨fun text => (never text).elim, fun t mem text => ?_,
      fun text => (never text).elim, fun t mem text => ?_,
      fun text => (never text).elim, List.forall_mem_nil _⟩,
      fun t mem text => (ihAfter t mem text).within (List.subset_append_right _ _)⟩
    · exact ((ihLeft t mem text).mono (right.grows.trans after.grows)).within fun n held =>
        List.mem_append_left _ (List.mem_cons_of_mem _ (List.mem_append_left _ held))
    · exact ((ihRight t mem text).mono after.grows).within fun n held =>
        List.mem_append_left _ (List.mem_cons_of_mem _ (List.mem_append_right _ held))
  | loop bound left right after ihLeft ihRight ihAfter =>
    simp only [spellAll, Statement.spell, List.forall_mem_append, List.forall_mem_cons]
    refine ⟨⟨fun text => (never text).elim, fun text => ?_, fun t mem text => ?_,
      fun text => (never text).elim, fun t mem text => ?_,
      fun text => (never text).elim, List.forall_mem_nil _⟩,
      fun t mem text => (ihAfter t mem text).within (List.subset_append_right _ _)⟩
    · rw [Token.Word.isText_eq] at text
      cases text
    · exact ((ihLeft t mem text).mono (right.grows.trans after.grows)).within fun n held =>
        List.mem_append_left _ (List.mem_cons_of_mem _ (List.mem_append_left _ held))
    · exact ((ihRight t mem text).mono after.grows).within fun n held =>
        List.mem_append_left _ (List.mem_cons_of_mem _ (List.mem_append_right _ held))
  | bind bound within after ihWithin ihAfter =>
    simp only [spellAll, Statement.spell, List.forall_mem_append, List.forall_mem_cons]
    refine ⟨⟨fun text => (never text).elim, fun t mem text => ?_,
      fun text => (never text).elim, fun t mem text => ?_,
      fun text => (never text).elim, List.forall_mem_nil _⟩, fun t mem text => ?_⟩
    · obtain ⟨word, -⟩ := List.mem_unattach.1 mem
      exact absurd word (Token.ne_of_isText text).1
    · refine ((ihWithin t mem text).mono after.grows).within fun n held => ?_
      simp [held]
    · refine (ihAfter t mem text).within fun n held => ?_
      simp [held]

/-- **Each string literal of bare items has its node in a function or in the main code.** -/
theorem Elaborates.loads {last : Supply} {heads : List Head} {items : List Item} {fs : List Func}
    {main : List Node} (h : Elaborates g s heads items fs main last)
    (bare : ∀ item ∈ items, item.Bare) : ∀ t ∈ items.flatMap Item.spell, t.isText = true →
      (∃ f ∈ fs, t.LoadedIn last.tables f.body) ∨ t.LoadedIn last.tables main := by
  have never : ∀ {t : Token} {p : Prop}, t.isText = false → t.isText = true → p :=
    fun none text => by
      rw [none] at text
      cases text
  induction h with
  | nil => exact List.forall_mem_nil _
  | statement built after ih =>
    obtain ⟨-, others⟩ := List.forall_mem_cons.1 bare
    simp only [List.flatMap_cons, Item.spell, List.forall_mem_append]
    refine ⟨fun t mem text => .inr ?_, fun t mem text => (ih others t mem text).imp_right ?_⟩
    · have here := built.loads t (by simpa [spellAll] using mem) text
      refine (here.mono after.grows).within ?_
      rw [nodesIn_append]
      exact List.subset_append_left _ _
    · intro here
      refine here.within ?_
      rw [nodesIn_append]
      exact List.subset_append_right _ _
  | stray after ih =>
    obtain ⟨-, others⟩ := List.forall_mem_cons.1 bare
    simp only [List.flatMap_cons, Item.spell, List.forall_mem_append, List.forall_mem_cons]
    exact ⟨⟨fun text => never (Token.Key.isText_eq _) text, List.forall_mem_nil _⟩, ih others⟩
  | plain after ih =>
    obtain ⟨first, others⟩ := List.forall_mem_cons.1 bare
    simp only [List.flatMap_cons, Item.spell, List.forall_mem_append, List.forall_mem_cons]
    exact ⟨⟨fun text => never (Token.Key.isText_eq _) text, fun t mem text => never (first t mem) text,
      fun text => never (Token.Key.isText_eq _) text, List.forall_mem_nil _⟩, ih others⟩
  | function bound built after ih =>
    obtain ⟨first, others⟩ := List.forall_mem_cons.1 bare
    simp only [List.flatMap_cons, Item.spell, List.forall_mem_append, List.forall_mem_cons]
    refine ⟨⟨fun text => never (Token.Key.isText_eq _) text, fun t mem text => never (first t mem) text,
      fun text => never (Token.Key.isText_eq _) text, fun t mem text => ?_,
      fun text => never (Token.Key.isText_eq _) text, List.forall_mem_nil _⟩, fun t mem text => ?_⟩
    · refine .inl ⟨_, List.mem_cons_self .., ?_⟩
      refine ((built.loads t mem text).mono after.grows).within fun n held => ?_
      simp [Head.func, held]
    · refine (ih others t mem text).imp_left ?_
      rintro ⟨f, known, here⟩
      exact ⟨f, List.mem_cons_of_mem _ known, here⟩

/-- **Each string literal of a program has its node.** -/
theorem Program.loads {limits : Limits} {text : Scanned} {p : Program}
    (ok : Program.ofTokens limits text = .ok (p, tables)) :
    ∀ t ∈ text.tokens, t.isText = true → ∃ f ∈ p.bodies, t.LoadedIn tables f.body := by
  obtain ⟨survey, items, last, first, spelled, elaborates, rfl⟩ := elaborates_of_ofTokens ok
  intro t mem literal
  have bare := fun item mem => (Survey.spare_of_ofTokens first spelled item mem).bare
  rcases elaborates.loads bare t (spelled ▸ mem) literal with ⟨f, known, here⟩ | here
  · exact ⟨f, List.mem_append_left _ known, here⟩
  · exact ⟨p.main, List.mem_append_right _ (List.mem_singleton_self _), here⟩

end Bodies

/-! ## Code -/

/-- Pushes words, the last one on top. -/
def Asm.State.pushAll (s : State) (ws : List Word) : State := ws.foldl State.push s

theorem Asm.State.Quiet.push {s t : State} (h : s.Quiet t) (w : Word) :
    (s.push w).Quiet (t.push w) := by
  refine ⟨?_, ?_, ?_⟩
  · rw [State.push_mem, State.push_mem, h.mem, h.rsp]
  · rw [State.push_rsp, State.push_rsp, h.rsp]
  · exact h.r15

/-- A string literal has its bytes behind its label, and its code pushes its words. -/
theorem Token.Loads.runs {tables : Tables} {t : Token} {label : String} {node : Node}
    {form : Literal} {chars : List Char} (h : t.Loads tables label node)
    (kind : t.kind = form.kind chars) :
    (label, form.data chars) ∈ tables.labelledLiterals ∧ node.place = t.place
      ∧ ∀ (L : Layout) (s : State), ∃ u, outcomes L (instrsOf node.lines) s = some u
        ∧ (s.pushAll (form.words chars (L.symbol label))).Quiet u := by
  cases h with
  | str here held =>
    have other : form ≠ .cstr := by
      rintro rfl
      cases here.symm.trans kind
    rw [Literal.kind, if_neg other] at kind
    cases here.symm.trans kind
    rw [utf8Bytes_ofList] at held ⊢
    rw [Literal.data, if_neg other]
    refine ⟨held, rfl, fun L s => ?_⟩
    rw [Literal.words, if_neg other, Node.lines, instrsOf_instrs]
    obtain ⟨u, first, -, length⟩ := outcomes_pushNumber (L := L) (s := s)
      (Int64.ofNat (encoded chars).length)
    obtain ⟨v, second, -, address⟩ := outcomes_pushAddress (L := L) (s := u) label
    refine ⟨v, ?_, (length.push _).trans address⟩
    show outcomes L (pushNumber _ ++ pushAddress label) s = _
    rw [outcomes_append, first]
    exact second
  | cstr here held =>
    have same : form = .cstr := by
      by_contra other
      rw [Literal.kind, if_neg other] at kind
      cases here.symm.trans kind
    subst same
    cases here.symm.trans kind
    rw [utf8Bytes_ofList] at held
    refine ⟨held, rfl, fun L s => ?_⟩
    rw [Node.lines, instrsOf_instrs]
    obtain ⟨v, done, -, address⟩ := outcomes_pushAddress (L := L) (s := s) label
    exact ⟨v, done, address⟩

/-- The instructions of lines stand in memory where the lines stand in the program. -/
theorem Asm.Image.exists_holds {M : Image} {part : List Line} (inside : part <:+: M.lines) :
    ∃ q, M.Holds q (instrsOf part) := by
  obtain ⟨before, behind, eq⟩ := inside
  refine ⟨(instrsOf before).length, instrsOf before, instrsOf behind, ?_, rfl⟩
  rw [Image.code, ← eq, instrsOf_append, instrsOf_append]

/-! ## Texts -/

/-- A string literal of a program that stands for some characters: its token holds them, the emitted
data has their encoding behind a label, and wherever the program is in memory, the code of its node
leads straight to its words on the stack. -/
structure Literal.Kept (form : Literal) (chars : List Char) (p : Program) (lines : List Line)
    (t : Token) (label : String) : Prop where
  kind : t.kind = form.kind chars
  bytes : utf8Bytes (String.ofList chars) = encoded chars
  data : (label, stored (form.data chars)) ∈ dataIn (textOf lines)
  code : ∃ f ∈ p.bodies, ∃ n ∈ nodesIn f.body, n.place = t.place ∧ n.lines <:+: lines
    ∧ ∀ M : Image, M.lines = lines → ∃ q, M.Holds q (instrsOf n.lines)
      ∧ ∀ (s : State) (calls : List Asm.Frame), s.pc = q → ∃ u, M.Straight ⟨s, calls⟩ ⟨u, calls⟩
        ∧ u.pc = q + (instrsOf n.lines).length
        ∧ (s.pushAll (form.words chars (M.layout.symbol label))).Quiet u

/-- **String literals survive into the data section.** Whatever characters a literal of an accepted
text stands for, however they are spelled: the bytes of its token are their encoding, its code pushes
a label behind which the emitted text stores these bytes, with a zero behind them for `c"…"` and with
nothing but a zero for `""`, and the length that the code of `"…"` pushes is the number of these bytes.
A label has the same bytes wherever it is pushed. -/
theorem literals_kept {limits : Limits} {source file asm : String} {pieces : List Piece}
    {tokens : List Token} (parts : Partition file [] source.toList pieces tokens)
    (ok : compile limits source file = .ok asm) :
    ∃ p tables, check limits source file = .ok (p, tables)
      ∧ asm = textOf (p.lines tables limits)
      ∧ (∀ (i : Nat) (form : Literal) (letters : List Letter) (chars : List Char),
        pieces[i]? = some (.literal form letters) → form ≠ .char →
        List.Forall₂ (Letter.Means form.quote) letters chars →
          ∃ t label, tokens[i]? = some t ∧ form.Kept chars p (p.lines tables limits) t label)
      ∧ ∀ label a b, (label, a) ∈ dataIn asm → (label, b) ∈ dataIn asm → a = b := by
  obtain ⟨⟨p, tables⟩, checked, eq⟩ := Except.bind_eq_ok.1 ok
  cases eq
  obtain ⟨spelled, -⟩ := check_eq_ok.1 checked
  have data : dataIn (p.asm tables limits) = _ := Program.dataIn_asm spelled
  obtain ⟨text, lexed, spelled⟩ := Program.ofText_eq_ok spelled
  obtain rfl := parts.tokens_eq lexed
  refine ⟨p, tables, checked, rfl, fun i form letters chars here string means => ?_, ?_⟩
  · obtain ⟨bound, piece⟩ := List.getElem?_eq_some_iff.1 here
    obtain ⟨place, makes⟩ := parts.makes.get bound (parts.makes.length_eq ▸ bound)
    rw [List.get_eq_getElem, piece] at makes
    have token := List.getElem?_eq_getElem (parts.makes.length_eq ▸ bound)
    have kind := makes.kind string means
    obtain ⟨f, body, label, n, inside, loads⟩ :=
      Program.loads spelled _ (List.getElem_mem _) (form.isText_of_kind kind)
    obtain ⟨held, stands, pushes⟩ := loads.runs kind
    have lines : n.lines <:+: p.lines tables limits :=
      (infix_of_mem_nodesIn f.body inside).trans (Program.infix_lines body)
    refine ⟨_, label, token, kind, utf8Bytes_ofList chars, data ▸ List.mem_map_of_mem held, f, body,
      n, inside, stands, lines, fun M same => ?_⟩
    obtain ⟨q, holds⟩ := M.exists_holds (same ▸ lines)
    refine ⟨q, holds, ?_⟩
    rintro s calls rfl
    obtain ⟨u, done, quiet⟩ := pushes M.layout s
    exact ⟨u, holds.straight done, outcomes_pc done, quiet⟩
  · intro label a b first second
    rw [data] at first second
    obtain ⟨⟨_, bytes⟩, left, eq⟩ := List.mem_map.1 first
    obtain ⟨⟨_, bytes'⟩, right, eq'⟩ := List.mem_map.1 second
    cases eq
    cases eq'
    rw [Tables.labelled_unique left right]

/-- The word `drop`. -/
def dropped : Piece := .word ['d', 'r', 'o', 'p']

theorem dropped_makes (place : Place) : dropped.Makes place ⟨.word, "drop", place⟩ := by
  have solid : ['d', 'r', 'o', 'p'].all (!isBlank ·) = true := by decide
  have solid : ∀ c ∈ ['d', 'r', 'o', 'p'], isBlank c = false :=
    fun c mem => by simpa using List.all_eq_true.1 solid c mem
  refine .word (by decide) solid (by decide) (.name (fun k => ?_) (by decide))
  cases k <;> decide

/-- The pieces of `"a\"" drop drop c"" drop`. -/
def quotedPieces : List Piece :=
  [.literal .str [.plain 'a', .escaped '"'], dropped, dropped, .literal .cstr [], dropped]

/-- The text `"a\"" drop drop c"" drop`. -/
def quotedText : String := String.ofList (quotedPieces.flatMap fun p => p.spell ++ [' '])

/-- Its tokens. -/
def quotedTokens : List Token :=
  [⟨.str "a\"", "\"a\"\"", ⟨1, 1, "t"⟩⟩, ⟨.word, "drop", ⟨1, 7, "t"⟩⟩, ⟨.word, "drop", ⟨1, 12, "t"⟩⟩,
    ⟨.cstr "", "c\"\"", ⟨1, 17, "t"⟩⟩, ⟨.word, "drop", ⟨1, 21, "t"⟩⟩]

theorem partition_quoted : Partition "t" [] quotedText.toList quotedPieces quotedTokens := by
  rw [quotedText, String.toList_ofList]
  have first : List.Forall₂ (Letter.Means '"') [.plain 'a', .escaped '"'] ['a', '"'] :=
    .cons (.plain (by decide) (by decide)) (.cons (.escaped (by decide)) .nil)
  refine .piece (.str first) (by rintro _ ⟨⟩; rfl) (.blank rfl ?_)
  refine .piece (dropped_makes _) (by rintro _ ⟨⟩; rfl) (.blank rfl ?_)
  refine .piece (dropped_makes _) (by rintro _ ⟨⟩; rfl) (.blank rfl ?_)
  refine .piece (.cstr .nil) (by rintro _ ⟨⟩; rfl) (.blank rfl ?_)
  exact .piece (dropped_makes _) (by rintro _ ⟨⟩; rfl) (.blank rfl .stop)

/-- Its two literals are kept behind labels of their own. -/
theorem literals_kept_quoted :
    ∃ asm p lines a b, compile {} quotedText "t" = .ok asm ∧ asm = textOf lines
      ∧ Literal.Kept .str ['a', '"'] p lines quotedTokens[0] a
      ∧ Literal.Kept .cstr [] p lines quotedTokens[3] b
      ∧ (a, [97, 34]) ∈ dataIn asm ∧ (b, [0]) ∈ dataIn asm ∧ a ≠ b := by
  obtain ⟨program, data, checked, -⟩ := Except.exists_eq_ok (x := check {} quotedText "t")
    (q := fun _ => true) (by decide +kernel)
  have ok : compile {} quotedText "t" = .ok (program.asm data {}) :=
    Except.bind_eq_ok.2 ⟨_, checked, rfl⟩
  obtain ⟨p, tables, -, eq, kept, unique⟩ := literals_kept partition_quoted ok
  obtain ⟨t, a, first, left⟩ := kept 0 .str [.plain 'a', .escaped '"'] ['a', '"'] rfl (by decide)
    (.cons (.plain (by decide) (by decide)) (.cons (.escaped (by decide)) .nil))
  obtain ⟨u, b, second, right⟩ := kept 3 .cstr [] [] rfl (by decide) .nil
  cases first
  cases second
  have here : (a, [97, 34]) ∈ dataIn (program.asm data {}) := eq ▸ left.data
  have there : (b, [0]) ∈ dataIn (program.asm data {}) := eq ▸ right.data
  refine ⟨_, p, _, a, b, ok, eq, left, right, here, there, ?_⟩
  rintro rfl
  cases unique a _ _ here there

end PinnedStack
