import PinnedStack.Proofs.Tree.FirstReading

/-!
# What one token does to the second reading

* `Reader.Resolves` — what a word stands for. `Op.fits_of_builtin?`, `Reader.resolve_fits` — it
  becomes a node that fits the pins in scope.
* `Reader.Moves` — every change that a token can make, with what is known of it.
* `Reader.step_moves` — a step that is not refused is one of them.
-/

namespace PinnedStack

/-! ## Words -/

theorem Op.syscallCount?_le {tail : List Char} {count : Nat}
    (h : Op.syscallCount? tail = some count) : count ≤ Op.maxSyscallArguments := by
  unfold syscallCount? at h
  split at h
  · split at h
    · rename_i bound
      cases h
      exact bound.2
    · cases h
  · cases h

theorem Op.fits_of_builtin? {word : String} {op : Op} (h : Op.builtin? word = some op)
    (scope : List Pin) : op.Fits scope := by
  unfold builtin? at h
  split at h
  · cases h
    trivial
  · split at h
    · obtain ⟨count, here, rfl⟩ := Option.map_eq_some_iff.1 h
      exact syscallCount?_le here
    · obtain ⟨⟨word, op⟩, here, rfl⟩ := Option.map_eq_some_iff.1 h
      have mem := List.mem_of_find?_eq_some here
      simp only [named, List.mem_cons, Prod.mk.injEq, List.not_mem_nil, or_false] at mem
      rcases mem with ⟨-, rfl⟩ | ⟨-, rfl⟩ | ⟨-, rfl⟩ | ⟨-, rfl⟩ | ⟨-, rfl⟩ | ⟨-, rfl⟩ | ⟨-, rfl⟩
        | ⟨-, rfl⟩ | ⟨-, rfl⟩ | ⟨-, rfl⟩ | ⟨-, rfl⟩ | ⟨-, rfl⟩ | ⟨-, rfl⟩ | ⟨-, rfl⟩ | ⟨-, rfl⟩
        | ⟨-, rfl⟩ <;> simp [Op.Fits]

namespace Reader

variable {callees : List Call} {g : Globals} {s : Supply} {word : String} {place : Place}

/-- The operation on a record that a word names loads it, stores it or finds one of its fields. -/
theorem recordOp_cases {op : Op} (ok : recordOp g word place = .ok (some op)) :
    (∃ r, (withoutLast? '@' word).bind g.record? = some r ∧ op = .load (.record r))
      ∨ (∃ r, (withoutLast? '!' word).bind g.record? = some r ∧ op = .store (.record r))
      ∨ ∃ name field r f, splitAtFirst? '.' word = some (name, field) ∧ g.record? name = some r
        ∧ r.field? field = some f ∧ op = .field r f := by
  unfold recordOp at ok
  split at ok
  · rename_i r loads
    cases ok
    exact .inl ⟨r, loads, rfl⟩
  · split at ok
    · rename_i r stores
      cases ok
      exact .inr (.inl ⟨r, stores, rfl⟩)
    · split at ok
      · cases ok
      · rename_i name field dotted
        split at ok
        · cases ok
        · rename_i r known
          split at ok
          · rename_i f found
            cases ok
            exact .inr (.inr ⟨name, field, r, f, dotted, known, found, rfl⟩)
          · cases ok

theorem recordOp_fits (hg : g.Sound callees) {op : Op}
    (ok : recordOp g word place = .ok (some op)) (scope : List Pin) : op.Fits scope := by
  -- Both the load and the store name a record by all but their last character.
  have sound : ∀ {mark r}, (withoutLast? mark word).bind g.record? = some r → r.Sound := by
    intro mark r here
    obtain ⟨name, -, found⟩ := Option.bind_eq_some_iff.1 here
    exact hg.of_record? found
  obtain ⟨r, loads, rfl⟩ | ⟨r, stores, rfl⟩ | ⟨name, field, r, f, -, known, found, rfl⟩ :=
    recordOp_cases ok
  · exact sound loads
  · exact sound stores
  · exact ⟨hg.of_record? known, List.mem_of_find?_eq_some found⟩

/-- What a word stands for: a pin in scope, then an operation, then a name that was defined. -/
inductive Resolves (g : Globals) (s : Supply) (word : String) (place : Place) : Node → Prop where
  | pinned {p : Pin} (found : s.find? word = some p) : Resolves g s word place (.op (.pinned p) place)
  | update {p : Pin} (unnamed : s.find? word = none)
      (found : (withoutLast? '!' word).bind s.find? = some p) :
      Resolves g s word place (.op (.update p) place)
  | builtin {op : Op} (unnamed : s.find? word = none)
      (unmarked : (withoutLast? '!' word).bind s.find? = none)
      (named : Op.builtin? word = some op) : Resolves g s word place (.op op place)
  | record {op : Op} (unnamed : s.find? word = none)
      (unmarked : (withoutLast? '!' word).bind s.find? = none) (other : Op.builtin? word = none)
      (named : recordOp g word place = .ok (some op)) : Resolves g s word place (.op op place)
  | global {node : Node} (unnamed : s.find? word = none)
      (unmarked : (withoutLast? '!' word).bind s.find? = none) (other : Op.builtin? word = none)
      (bare : recordOp g word place = .ok none) (named : globalNode g word place = .ok node) :
      Resolves g s word place node

theorem resolve_eq_ok {node : Node} :
    resolve g s word place = .ok node ↔ Resolves g s word place node := by
  unfold resolve
  constructor
  · intro ok
    split at ok
    · rename_i found
      cases ok
      exact .pinned found
    · rename_i unnamed
      split at ok
      · rename_i found
        cases ok
        exact .update unnamed found
      · rename_i unmarked
        split at ok
        · rename_i named
          cases ok
          exact .builtin unnamed unmarked named
        · rename_i other
          split at ok
          · cases ok
          · rename_i named
            cases ok
            exact .record unnamed unmarked other named
          · rename_i bare
            exact .global unnamed unmarked other bare ok
  · intro resolves
    cases resolves with
    | pinned found => simp only [found]
    | update unnamed found => simp only [unnamed, found]
    | builtin unnamed unmarked named => simp only [unnamed, unmarked, named]
    | record unnamed unmarked other named => simp only [unnamed, unmarked, other, named]
    | global unnamed unmarked other bare named => simp only [unnamed, unmarked, other, bare, named]

/-- A name in scope stands for a call, a number or the address of a memory. -/
theorem globalNode_cases {node : Node} (ok : globalNode g word place = .ok node) :
    (∃ signature, g.find? word = some (.function signature)
        ∧ node = .call ⟨signature.label, word, signature.contract⟩ place)
      ∨ (∃ value, g.find? word = some (.constant value) ∧ node = .op (.number value) place)
      ∨ ∃ label ty, g.find? word = some (.memory label ty)
        ∧ node = .op (.memory label ty) place := by
  unfold globalNode at ok
  split at ok <;> cases ok
  · exact .inl ⟨_, ‹_›, rfl⟩
  · exact .inr (.inl ⟨_, ‹_›, rfl⟩)
  · exact .inr (.inr ⟨_, _, ‹_›, rfl⟩)

theorem globalNode_fits (hg : g.Sound callees) {node : Node}
    (ok : globalNode g word place = .ok node) (scope : List Pin) : node.Fits callees scope := by
  obtain ⟨signature, found, rfl⟩ | ⟨value, -, rfl⟩ | ⟨label, ty, found, rfl⟩ := globalNode_cases ok
  · exact hg.of_find? found
  · trivial
  · exact hg.of_find? found

theorem find?_self {name : String} {p : Pin} (found : s.find? name = some p) :
    s.book.live.find? (·.name == p.name) = some p := by
  have named : p.name = name := by simpa using List.find?_some found
  rw [named]
  exact found

theorem resolve_fits (hg : g.Sound callees) {node : Node} (ok : resolve g s word place = .ok node) :
    node.Fits callees s.book.live := by
  cases resolve_eq_ok.1 ok with
  | pinned found => exact find?_self found
  | update _ found =>
    obtain ⟨name, -, found⟩ := Option.bind_eq_some_iff.1 found
    exact find?_self found
  | builtin _ _ named => exact Op.fits_of_builtin? named _
  | record _ _ _ named => exact recordOp_fits hg named _
  | global _ _ _ _ named => exact globalNode_fits hg named _

/-! ## Names -/

/-- What bringing a name into scope does to the supply. -/
structure Brings (s : Supply) (p : Pin) (next : Supply) : Prop where
  slot : p.slot = s.nextSlot
  live : next.book.live = p :: s.book.live
  nextSlot : next.nextSlot = s.nextSlot + p.ty.width
  capacity : next.book.capacity = s.book.capacity
  room : next.nextSlot ≤ s.book.capacity
  nextLabel : next.nextLabel = s.nextLabel

theorem pin_brings {next : Supply} {name : String} {ty : Ty} {p : Pin}
    (ok : s.pin name ty place = .ok (p, next)) : p.ty = ty ∧ Brings s p next := by
  unfold Supply.pin at ok
  split at ok
  · cases ok
  · rename_i q book here
    cases ok
    obtain ⟨rfl, live, capacity, nextSlot, room⟩ := PinBook.pin_eq_ok here
    exact ⟨rfl, rfl, live, nextSlot, capacity, room, rfl⟩

theorem bindName_brings (hg : g.Sound callees) {next : Supply} {t : Token} {byDefault : Ty}
    {p : Pin} (ok : bindName g s t byDefault = .ok (p, next)) :
    (p.ty = byDefault ∨ p.ty.Sound) ∧ Brings s p next := by
  have typed : ∀ {name ty}, binding g t byDefault = .ok (name, ty) → ty = byDefault ∨ ty.Sound := by
    intro name ty here
    unfold binding at here
    simp only at here
    split at here
    · split at here <;> cases here
      exact .inl rfl
    · split at here
      · rename_i sound
        split at here <;> cases here
        exact .inr (Globals.tyOf_sound hg sound)
      · cases here
  unfold bindName at ok
  split at ok
  · rename_i name ty here
    obtain ⟨rfl, brings⟩ := pin_brings ok
    exact ⟨typed here, brings⟩
  · cases ok

/-- What bringing the inputs of a function into scope does to the supply. -/
theorem bindParams_brings {next : Supply} {params : List (String × Ty)} {pins : List Pin}
    (ok : bindParams s place params = .ok (pins, next)) (sound : Survey.SoundParams params) :
    (∀ p ∈ pins, p.ty.Sound) ∧ next.book.live = pins.reverse ++ s.book.live
      ∧ Pin.Laid s.nextSlot pins next.nextSlot ∧ next.book.capacity = s.book.capacity
      ∧ (s.nextSlot ≤ s.book.capacity → next.nextSlot ≤ s.book.capacity)
      ∧ next.nextLabel = s.nextLabel := by
  induction params generalizing s pins with
  | nil =>
    cases ok
    exact ⟨by simp, by simp, rfl, rfl, id, rfl⟩
  | cons param rest ih =>
    obtain ⟨name, ty⟩ := param
    simp only [bindParams] at ok
    split at ok
    · cases ok
    · rename_i p middle here
      split at ok
      · rename_i more last tail
        cases ok
        obtain ⟨rfl, brings⟩ := pin_brings here
        obtain ⟨fits, live, laid, capacity, room, nextLabel⟩ :=
          ih tail fun q mem => sound q (List.mem_cons_of_mem _ mem)
        refine ⟨?_, ?_, ⟨brings.slot, ?_⟩, ?_, ?_, ?_⟩
        · intro q mem
          rcases List.mem_cons.1 mem with rfl | mem
          · exact sound _ (List.mem_cons_self ..)
          · exact fits q mem
        · simp [live, brings.live]
        · exact brings.nextSlot ▸ laid
        · exact capacity.trans brings.capacity
        · intro _
          have := room (brings.capacity ▸ brings.room)
          exact brings.capacity ▸ this
        · exact nextLabel.trans brings.nextLabel
      · cases ok

/-! ## Steps -/

/-- What one token can do to the second reading. With a word or a literal nothing but the data may
grow beside the node that it adds; a `;` where no block is open changes nothing. -/
inductive Moves (g : Globals) : Reader → Token → Reader → Prop where
  | leaf {r : Reader} {t : Token} {supply : Supply} {node : Node} (phase : r.phase = .statement)
      (plain : ∀ k, t.kind ≠ .keyword k) (book : supply.book = r.supply.book)
      (nextLabel : supply.nextLabel = r.supply.nextLabel)
      (fits : ∀ callees, g.Sound callees → node.Fits callees r.supply.book.live) :
      Moves g r t ({ r with supply := supply }.add [node])
  | branch {r : Reader} {t : Token} (phase : r.phase = .statement)
      (kind : t.kind = .keyword .branch) : Moves g r t (r.openBranch t.place)
  | loop {r : Reader} {t : Token} (phase : r.phase = .statement)
      (kind : t.kind = .keyword .loop) : Moves g r t { r with phase := .iterator t.place }
  | bind {r : Reader} {t : Token} (phase : r.phase = .statement)
      (kind : t.kind = .keyword .bind) : Moves g r t { r with phase := .names [] t.place }
  | stray {r : Reader} {t : Token} (phase : r.phase = .statement)
      (kind : t.kind = .keyword .semicolon) (blocks : r.blocks = []) : Moves g r t r
  | close {r next : Reader} {t : Token} {b : OpenBlock} {outer : List OpenBlock}
      (phase : r.phase = .statement) (kind : t.kind = .keyword .semicolon)
      (blocks : r.blocks = b :: outer) (closed : r.close b outer = some next) : Moves g r t next
  | otherwise {r : Reader} {t : Token} {label : Nat} {opener : Place} {nodes : List Node}
      {outer : List OpenBlock} (phase : r.phase = .statement)
      (kind : t.kind = .keyword .otherwise) (blocks : r.blocks = ⟨.whenTrue label opener, nodes⟩ :: outer) :
      Moves g r t { r with blocks := ⟨.whenFalse nodes label opener, []⟩ :: outer }
  | body {r : Reader} {t : Token} {p : Pin} {label : Nat} {opener : Place} {nodes : List Node}
      {outer : List OpenBlock} (phase : r.phase = .statement) (kind : t.kind = .keyword .body)
      (blocks : r.blocks = ⟨.loopCondition p label opener, nodes⟩ :: outer) :
      Moves g r t { r with blocks := ⟨.loopBody p nodes label opener, []⟩ :: outer }
  | function {r : Reader} {t : Token} {head : Head} {rest : List Head}
      (phase : r.phase = .statement) (kind : t.kind = .keyword .colon) (blocks : r.blocks = [])
      (heads : r.heads = head :: rest) :
      Moves g r t { r with heads := rest, phase := .head head t.place }
  | definition {r : Reader} {t : Token} {k : Keyword} {plain : Plain} (phase : r.phase = .statement)
      (kind : t.kind = .keyword k) (form : Form.ofKeyword? k = some (.plain plain))
      (blocks : r.blocks = []) : Moves g r t { r with phase := .plain }
  | inHead {r : Reader} {t : Token} {head : Head} {opener : Place}
      (phase : r.phase = .head head opener) (kind : t.kind ≠ .keyword .closeParen) : Moves g r t r
  | headDone {r next : Reader} {t : Token} {head : Head} {opener : Place}
      (phase : r.phase = .head head opener) (kind : t.kind = .keyword .closeParen)
      (opened : r.openFunction head opener = .ok next) : Moves g r t next
  | inPlain {r : Reader} {t : Token} (phase : r.phase = .plain)
      (kind : t.kind ≠ .keyword .semicolon) : Moves g r t r
  | plainDone {r : Reader} {t : Token} (phase : r.phase = .plain)
      (kind : t.kind = .keyword .semicolon) : Moves g r t { r with phase := .statement }
  | iterator {r : Reader} {t : Token} {opener : Place} {p : Pin} {supply : Supply}
      (phase : r.phase = .iterator opener) (kind : t.kind = .word)
      (bound : bindName g r.supply t .number = .ok (p, supply)) :
      Moves g r t { { r with supply := supply.label.2 }.push (.loopCondition p supply.label.1 opener)
        with phase := .statement }
  | name {r : Reader} {t : Token} {pins : List Pin} {opener : Place} {p : Pin} {supply : Supply}
      (phase : r.phase = .names pins opener) (kind : t.kind = .word)
      (bound : bindName g r.supply t .runtime = .ok (p, supply)) :
      Moves g r t { r with supply := supply, phase := .names (pins ++ [p]) opener }
  | within {r : Reader} {t : Token} {pins : List Pin} {opener : Place}
      (phase : r.phase = .names pins opener) (kind : t.kind = .keyword .within) :
      Moves g r t { (r.add (pinNodes pins opener)).push (.bindBody pins opener) with
        phase := .statement }

variable {r next : Reader} {t : Token}

/-- A body is opened where the named inputs of its head are bound, with their pins in front. -/
theorem openFunction_eq_ok {head : Head} {opener : Place} :
    r.openFunction head opener = .ok next ↔ ∃ pins supply,
      bindParams r.supply head.place (head.signature.params.getD []) = .ok (pins, supply)
        ∧ next = { r with
            supply := supply
            blocks := ⟨.function head opener r.supply.nextSlot pins, pinNodes pins head.place⟩
              :: r.blocks
            phase := .statement } := by
  unfold openFunction
  constructor
  · intro ok
    split at ok
    · cases ok
    · rename_i pins supply bound
      cases ok
      exact ⟨pins, supply, bound, rfl⟩
  · rintro ⟨pins, supply, bound, rfl⟩
    rw [bound]

theorem keyword_moves {k : Keyword} (phase : r.phase = .statement) (kind : t.kind = .keyword k)
    (ok : r.keyword k t.place = .ok next) : Moves g r t next := by
  unfold keyword at ok
  simp only at ok
  split at ok
  · cases ok
    exact .branch phase kind
  · cases ok
    exact .loop phase kind
  · cases ok
    exact .bind phase kind
  · rename_i blocks
    cases ok
    exact .stray phase kind blocks
  · rename_i b outer blocks
    split at ok
    · rename_i closed
      cases ok
      exact .close phase kind blocks closed
    · cases ok
  · rename_i blocks
    cases ok
    exact .otherwise phase kind blocks
  · rename_i blocks
    cases ok
    exact .body phase kind blocks
  · rename_i blocks
    split at ok
    · rename_i heads
      cases ok
      exact .function phase kind blocks heads
    · cases ok
  · rename_i blocks
    cases ok
    exact .definition phase kind rfl blocks
  · rename_i blocks
    cases ok
    exact .definition phase kind rfl blocks
  · rename_i blocks
    cases ok
    exact .definition phase kind rfl blocks
  · cases ok

theorem statement_moves (phase : r.phase = .statement) (ok : statement g r t = .ok next) :
    Moves g r t next := by
  unfold statement at ok
  split at ok
  · rename_i kind
    cases ok
    exact .leaf phase (by simp [kind]) rfl rfl fun _ _ => trivial
  · rename_i kind
    cases ok
    exact .leaf phase (by simp [kind]) rfl rfl fun _ _ => trivial
  · rename_i kind
    cases ok
    exact .leaf phase (by simp [kind]) rfl rfl fun _ _ => trivial
  · rename_i kind
    split at ok
    · rename_i node here
      cases ok
      exact .leaf phase (by simp [kind]) rfl rfl fun _ hg => resolve_fits hg here
    · cases ok
  · rename_i kind
    exact keyword_moves phase kind ok

/-- A token that is not refused does one of these things. -/
theorem step_moves (ok : step g r t = .ok next) : Moves g r t next := by
  unfold step at ok
  split at ok
  · rename_i phase
    exact statement_moves phase ok
  · rename_i phase
    split at ok
    · rename_i kind
      exact .headDone phase kind ok
    · rename_i kind
      cases ok
      exact .inHead phase kind
  · rename_i phase
    split at ok
    · rename_i kind
      cases ok
      exact .plainDone phase kind
    · rename_i kind
      cases ok
      exact .inPlain phase kind
  · rename_i phase
    split at ok
    · rename_i kind
      unfold openLoop at ok
      split at ok
      · cases ok
      · rename_i bound
        cases ok
        exact .iterator phase kind bound
    · cases ok
  · rename_i phase
    unfold bindToken at ok
    split at ok
    · rename_i kind
      unfold openBind at ok
      split at ok
      · cases ok
      · cases ok
        exact .within phase kind
    · rename_i kind
      split at ok
      · rename_i bound
        cases ok
        exact .name phase kind bound
      · cases ok
    · cases ok

/-! ## The whole reading -/

/-- What every token keeps is kept by the whole reading. -/
theorem run_induct {P : Reader → Prop}
    (keep : ∀ {r : Reader} {t : Token} {next : Reader}, P r → Moves g r t next → P next)
    {ts : List Token} (h : P r) (ok : run g r ts = .ok next) : P next := by
  induction ts generalizing r with
  | nil =>
    cases ok
    exact h
  | cons t ts ih =>
    simp only [run] at ok
    split at ok
    · rename_i one here
      exact ih (keep h (step_moves here)) ok
    · cases ok

end Reader

/-- A program comes from two readings of its tokens. -/
theorem Program.ofTokens_eq_ok {limits : Limits} {text : Scanned} {p : Program} {tables : Tables}
    (ok : Program.ofTokens limits text = .ok (p, tables)) :
    ∃ survey r, Survey.ofTokens limits text = .ok survey
      ∧ Reader.run survey.globals (.start survey) text.tokens = .ok r
      ∧ r.finish text.stop = .ok r ∧ p = ⟨r.functions, .entry r.main text.start⟩
      ∧ tables = r.supply.tables := by
  unfold Program.ofTokens at ok
  split at ok
  · cases ok
  · rename_i survey first
    split at ok
    · cases ok
    · rename_i r second
      split at ok
      · cases ok
      · rename_i last finished
        have same : last = r := by
          unfold Reader.finish at finished
          split at finished <;> cases finished <;> rfl
        cases ok
        exact ⟨survey, r, first, second, same ▸ finished, by rw [same], by rw [same]⟩

/-- A program that is spelled by a text is spelled by its tokens. -/
theorem Program.ofText_eq_ok {limits : Limits} {text file : String} {p : Program} {tables : Tables}
    (ok : Program.ofText limits text file = .ok (p, tables)) :
    ∃ scanned, Scanned.ofText text file = .ok scanned
      ∧ Program.ofTokens limits scanned = .ok (p, tables) := by
  unfold Program.ofText at ok
  split at ok
  · rename_i scanned here
    exact ⟨scanned, here, ok⟩
  · cases ok

end PinnedStack
