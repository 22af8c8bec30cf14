import PinnedStack.Proofs.Grammar.Openers
import PinnedStack.Proofs.Tree.Recorded

/-!
# Blocks that are never closed

* `Block.opener` — the keyword that opens a block.
* `Opened` — among the tokens so far, an opener that is still open, with the levels open inside it.
* `Survey.Phase.Covers`, `Reader.Covers` — what both readings wait for was opened by a token and is
  still open. `Survey.covers_run`, `Reader.covers_run` — tokens keep that so.
* `Malformation.not_unterminated` — no other cause is worded as a missing end.
* `Program.openers_closed` — a program closes all its openers, and a missing end is reported at an
  opener that is not closed.
-/

namespace PinnedStack

/-- The keyword that opens a block. -/
def Block.opener : Block → Keyword
  | plain p => p.keyword
  | function _ => .colon
  | whenTrue | whenFalse => .branch
  | loopCondition | loopBody => .loop
  | bindNames | bindBody => .bind

theorem Block.isOpener_opener (b : Block) : b.opener.isOpener = true := by
  rcases b with (_ | _ | _) | _ | _ | _ | _ | _ | _ | _ <;> rfl

/-! ## Openers among the tokens so far -/

/-- Among tokens, a keyword at a place that is not closed by those behind it, where blocks open
levels and definitions do not. -/
def Opened (before : List Token) (place : Place) (k : Keyword) (n : Nat) : Prop :=
  ∃ front t rest, before = front ++ t :: rest ∧ t.kind = .keyword k ∧ t.place = place
    ∧ levels false (some 0) rest = some n

namespace Opened

variable {before ts : List Token} {place : Place} {k : Keyword} {n m : Nat} {t : Token}

theorem new (kind : t.kind = .keyword k) : Opened (before ++ [t]) t.place k 0 :=
  ⟨before, t, [], rfl, kind, rfl, rfl⟩

theorem snoc (h : Opened before place k n) (next : level false (some n) t = some m) :
    Opened (before ++ [t]) place k m := by
  obtain ⟨front, opener, rest, rfl, kind, there, still⟩ := h
  refine ⟨front, opener, rest ++ [t], by simp, kind, there, ?_⟩
  rw [levels_append, still]
  exact next

theorem word (h : Opened before place k n) (kind : t.kind = .word) :
    Opened (before ++ [t]) place k n :=
  h.snoc (level_word kind)

theorem mark {j : Keyword} (h : Opened before place k n) (t : Token.Key j) (other : j ≠ .semicolon)
    (closed : j.isOpener = false) : Opened (before ++ [t.1]) place k n :=
  h.snoc (t.level_eq other closed)

theorem unclosed (h : Opened ts place k n) (definitions : Bool) : ∃ t rest, t :: rest <:+ ts
    ∧ t.kind = .keyword k ∧ t.place = place ∧ ¬ Closes definitions rest := by
  obtain ⟨front, t, rest, rfl, kind, there, still⟩ := h
  exact ⟨t, rest, List.suffix_append _ _, kind, there, not_closes_of_levels still⟩

end Opened

/-! ## The first reading -/

namespace Survey

variable {s next : Survey} {g : Globals} {t : Token} {before ts : List Token}

/-- The definition that is being read was opened by a token and is still open. -/
def Phase.Covers (before : List Token) : Survey.Phase → Prop
  | .between => True
  | .naming form opener => Opened before opener form.keyword 0
  | .collecting plain about _ => ∃ n, Opened before about.opener plain.keyword n
  | .opening about => Opened before about.opener .colon 0
  | .inputs about _ _ => Opened before about.opener .colon 0
  | .outputs about _ _ _ => Opened before about.opener .colon 0
  | .body about _ _ depth => ∃ n, depth = n + 1 ∧ Opened before about.opener .colon n

theorem covers_advance {phase after : Survey.Phase} (h : phase.Covers before)
    (ok : advance g t phase = .ok after) (inside : ¬ phase.stage.Ends t.kind)
    (plain : ∀ p n ts, phase = .collecting p n ts → t.kind ≠ .keyword .semicolon) :
    after.Covers (before ++ [t]) := by
  cases advance_eq_ok.1 ok with
  | between => trivial
  | @opener k form kind defines =>
    have same : form.keyword = k := by cases k <;> cases defines <;> rfl
    exact Opened.new (kind.trans (by rw [same]))
  | plainName word => exact ⟨0, Opened.word h word⟩
  | functionName word | namedInput word | anonymousInput word | output word =>
    exact Opened.word h word
  | @collected p about tokens =>
    obtain ⟨n, opened⟩ := h
    obtain ⟨m, level⟩ := exists_level_of_ne (n := n) (plain p about tokens rfl)
    exact ⟨m, opened.snoc level⟩
  | openParen kind | dashes kind => exact Opened.mark h ⟨t, kind⟩ (by decide) rfl
  | anonymous kind | named _ kind => exact ⟨0, rfl, Opened.mark h ⟨t, kind⟩ (by decide) rfl⟩
  | @block about _ _ _ k opens kind =>
    obtain ⟨n, rfl, opened⟩ := h
    have block : k.isBlock = true := by rcases opens with rfl | rfl | rfl <;> rfl
    exact ⟨n + 1, rfl, opened.snoc (level_block block kind)⟩
  | semicolon kind =>
    obtain ⟨n, rfl, opened⟩ := h
    have deep : n ≠ 0 := by
      rintro rfl
      exact inside ⟨rfl, kind⟩
    exact ⟨n - 1, by omega, opened.snoc ((level_semicolon kind).trans (if_neg deep))⟩
  | inside flat =>
    obtain ⟨n, rfl, opened⟩ := h
    refine ⟨n, rfl, opened.snoc (level_flat (fun stop => (flat _ stop).2 rfl) fun k kind => ?_)⟩
    have other := (flat k kind).1
    cases k <;> simp_all [Keyword.nests, Keyword.isBlock]

theorem covers_step (h : s.phase.Covers before) (ok : s.step t = .ok next) :
    next.phase.Covers (before ++ [t]) := by
  obtain ⟨_, _, _, _, _, _, between, -⟩ | ⟨_, _, _, _, _, _, between, -⟩
    | ⟨after, advanced, rfl, inside, plain⟩ := step_cases ok
  · rw [between]
    trivial
  · rw [between]
    trivial
  · exact covers_advance h advanced inside plain

/-- **The definition that the first reading is in was opened by a token and is still open.** -/
theorem covers_run (h : s.phase.Covers before) (ok : s.run ts = .ok next) :
    next.phase.Covers (before ++ ts) := by
  induction ts generalizing s before with
  | nil =>
    cases ok
    simpa using h
  | cons t ts ih =>
    rw [run] at ok
    split at ok
    · rename_i one here
      simpa using ih (covers_step h here) ok
    · cases ok

end Survey

/-! ## The second reading -/

namespace Reader

variable {r next : Reader} {g : Globals} {t : Token} {before ts : List Token} {n m : Nat}

/-- The open blocks were opened by tokens and are still open, each with all those inside it. -/
def CoveredBy (before : List Token) : Nat → List OpenBlock → Prop
  | _, [] => True
  | n, b :: outer =>
      (b.frame.head? = none → Opened before b.frame.opener b.frame.block.opener n)
        ∧ CoveredBy before (n + 1) outer

/-- One more token that changes the levels of all open blocks alike. -/
theorem CoveredBy.snoc {blocks : List OpenBlock} (h : CoveredBy before n blocks)
    (all : ∀ i, level false (some (n + i)) t = some (m + i)) :
    CoveredBy (before ++ [t]) m blocks := by
  induction blocks generalizing n m with
  | nil => trivial
  | cons b outer ih =>
    refine ⟨fun inner => (h.1 inner).snoc (all 0), ih h.2 fun i => ?_⟩
    rw [Nat.add_assoc, Nat.add_assoc]
    exact all (1 + i)

theorem CoveredBy.extend {blocks : List OpenBlock} (h : CoveredBy before n blocks)
    (main nodes : List Node) : CoveredBy before n (PinnedStack.extend main blocks nodes).2 := by
  cases blocks with
  | nil => trivial
  | cons b outer => exact h

theorem coveredBy_close {b : OpenBlock} {outer : List OpenBlock}
    (closed : r.close b outer = some next) (h : CoveredBy before n outer) :
    CoveredBy before n next.blocks := by
  obtain ⟨-, supply, nodes, rfl⟩ | ⟨_, _, _, _, -, rfl⟩ := close_cases closed
  · rw [add_blocks]
    exact h.extend _ _
  · exact h

/-- What the second reading waits for was opened by tokens and is still open. -/
structure Covers (before : List Token) (r : Reader) : Prop where
  blocks : CoveredBy before r.phase.pending r.blocks
  iterator : ∀ opener, r.phase = .iterator opener → Opened before opener .loop 0
  names : ∀ pins opener, r.phase = .names pins opener → Opened before opener .bind 0
  head : ∀ head opener, r.phase = .head head opener → r.blocks = []
  plain : r.phase = .plain → r.blocks = []

theorem Covers.of_statement (phase : r.phase = .statement) (covered : CoveredBy before 0 r.blocks) :
    r.Covers before := by
  refine ⟨?_, ?_, ?_, ?_, fun other => ?_⟩
  · rw [phase]
    exact covered
  all_goals simp_all

theorem Covers.at_statement (h : r.Covers before) (phase : r.phase = .statement) :
    CoveredBy before 0 r.blocks := by
  have covered := h.blocks
  rw [phase] at covered
  exact covered

theorem Covers.of_outside (outside : r.blocks = []) (head : r.phase.pending = 0) : r.Covers before := by
  refine ⟨by rw [outside]; trivial, fun opener phase => ?_, fun pins opener phase => ?_,
    fun _ _ _ => outside, fun _ => outside⟩
  · rw [phase] at head
    cases head
  · rw [phase] at head
    cases head

theorem covers_moves (h : r.Covers before) (moves : Moves g r t next) :
    next.Covers (before ++ [t]) := by
  have opens : ∀ {k : Keyword}, k.isBlock = true → t.kind = .keyword k → ∀ i,
      level false (some (0 + i)) t = some (1 + i) := by
    intro k block kind i
    rw [level_block block kind]
    congr 1
    omega
  cases moves with
  | leaf phase plain =>
    have stays : ∀ i, level false (some i) t = some i := fun i =>
      level_flat (plain _) fun k kind => absurd kind (plain k)
    refine .of_statement (by simp [phase]) ?_
    rw [add_blocks]
    exact ((h.at_statement phase).snoc fun i => stays _).extend _ _
  | branch phase kind =>
    exact .of_statement phase ⟨fun _ => .new kind, (h.at_statement phase).snoc (opens rfl kind)⟩
  | loop phase kind =>
    refine ⟨(h.at_statement phase).snoc (opens rfl kind), fun opener eq => ?_, nofun, nofun, nofun⟩
    cases eq
    exact .new kind
  | bind phase kind =>
    refine ⟨(h.at_statement phase).snoc (opens rfl kind), nofun, fun pins opener eq => ?_, nofun,
      nofun⟩
    cases eq
    exact .new kind
  | stray phase kind blocks => exact .of_outside blocks (by rw [phase]; rfl)
  | close phase kind blocks closed =>
    have covered := h.at_statement phase
    rw [blocks] at covered
    have closes : ∀ i, level false (some (0 + 1 + i)) t = some (0 + i) := by
      intro i
      rw [level_semicolon kind, if_neg (by omega)]
      congr 1
      omega
    refine .of_statement ((close_closes closed).phase.trans phase) ?_
    exact coveredBy_close closed (covered.2.snoc closes)
  | otherwise phase kind blocks =>
    have covered := h.at_statement phase
    rw [blocks] at covered
    have all := covered.snoc (m := 0) fun i => Token.Key.level_eq ⟨t, kind⟩ (by decide) rfl
    exact .of_statement phase all
  | body phase kind blocks =>
    have covered := h.at_statement phase
    rw [blocks] at covered
    have all := covered.snoc (m := 0) fun i => Token.Key.level_eq ⟨t, kind⟩ (by decide) rfl
    exact .of_statement phase all
  | function phase kind blocks heads => exact .of_outside blocks rfl
  | definition phase kind form blocks => exact .of_outside blocks rfl
  | inHead phase kind => exact .of_outside (h.head _ _ phase) (by rw [phase]; rfl)
  | headDone phase kind opened =>
    have outside := h.head _ _ phase
    obtain ⟨-, -, -, rfl⟩ := openFunction_eq_ok.1 opened
    refine .of_statement rfl ⟨nofun, ?_⟩
    rw [outside]
    trivial
  | inPlain phase kind => exact .of_outside (h.plain phase) (by rw [phase]; rfl)
  | plainDone phase kind => exact .of_outside (h.plain phase) rfl
  | iterator phase kind bound =>
    have covered := h.blocks
    rw [phase] at covered
    have all := covered.snoc (m := 1) fun i => level_word kind
    exact .of_statement rfl ⟨fun _ => (h.iterator _ phase).word kind, all⟩
  | name phase kind bound =>
    have covered := h.blocks
    rw [phase] at covered
    have all := covered.snoc (m := 1) fun i => level_word kind
    refine ⟨all, nofun, fun pins opener eq => ?_, nofun, nofun⟩
    cases eq
    exact (h.names _ _ phase).word kind
  | within phase kind =>
    have covered := h.blocks
    rw [phase] at covered
    have all := covered.snoc (m := 1) fun i => Token.Key.level_eq ⟨t, kind⟩ (by decide) rfl
    refine .of_statement rfl ⟨fun _ => (h.names _ _ phase).mark ⟨t, kind⟩ (by decide) rfl, ?_⟩
    rw [add_blocks]
    exact all.extend _ _

/-- **The open blocks of the second reading were opened by tokens and are still open.** -/
theorem covers_run (h : r.Covers before) (ok : run g r ts = .ok next) :
    next.Covers (before ++ ts) := by
  induction ts generalizing r before with
  | nil =>
    cases ok
    simpa using h
  | cons t ts ih =>
    rw [run] at ok
    split at ok
    · rename_i one here
      simpa using ih (covers_moves h (step_moves here)) ok
    · cases ok

end Reader

/-! ## The end of the text -/

/-- A text ends in a block that was opened by one of its tokens and is still open. -/
def EndsOpen (ts : List Token) (d : Diagnostic) : Prop :=
  ∃ block n, d.fault = .malformed (.unterminated block) ∧ Opened ts d.place block.opener n

theorem Survey.endsOpen_of_finish {s : Survey} {ts : List Token} {stop : Place} {d : Diagnostic}
    (covers : s.phase.Covers ts) (refused : s.finish stop = .error d) :
    d.fault.isOrdinary = true ∨ EndsOpen ts d := by
  unfold finish at refused
  cases phase : s.phase <;> rw [phase] at covers refused <;> cases refused
  case collecting plain about held =>
    obtain ⟨n, opened⟩ := covers
    exact .inr ⟨.plain plain, n, rfl, opened⟩
  case body about contract params depth =>
    obtain ⟨n, -, opened⟩ := covers
    exact .inr ⟨.function about.name.lexeme, n, rfl, opened⟩
  all_goals exact .inl rfl

/-- Outside all definitions the open blocks are those of statements. -/
theorem Reader.head?_eq_none_of_between {r : Reader} {callees : List Call} {capacity : Nat}
    {b : OpenBlock} {outer : List OpenBlock} (nested : r.Nested callees capacity)
    (phase : r.phase = .statement) (stage : r.stage = .between) (blocks : r.blocks = b :: outer) :
    b.frame.head? = none := by
  cases outer with
  | cons c outer => exact nested.head?_eq_none phase blocks
  | nil =>
    rw [stage_eq (by simp [phase]) (by simp [phase]), blocks] at stage
    cases function : b.frame.head? with
    | none => rfl
    | some head => simp [definedBy, function] at stage

theorem Reader.endsOpen_of_finish {r : Reader} {ts : List Token} {stop : Place} {d : Diagnostic}
    {callees : List Call} {capacity : Nat} (covers : r.Covers ts)
    (nested : r.Nested callees capacity) (stage : r.stage = .between)
    (refused : r.finish stop = .error d) : d.fault.isOrdinary = true ∨ EndsOpen ts d := by
  unfold finish at refused
  split at refused
  · cases refused
  · rename_i b outer phase blocks
    cases refused
    have covered := covers.at_statement phase
    rw [blocks] at covered
    have inner := head?_eq_none_of_between nested phase stage blocks
    exact .inr ⟨b.frame.block, 0, rfl, covered.1 inner⟩
  · rename_i phase
    simp [Reader.stage, phase] at stage
  · cases refused
  · cases refused
    exact .inl rfl
  · rename_i pins opener phase
    cases refused
    exact .inr ⟨.bindNames, 0, rfl, covers.names pins opener phase⟩

/-- Tokens are refused for the fault of a definition or a statement, or they end in a block. -/
theorem Program.endsOpen_of_ofTokens {limits : Limits} {text : Scanned} {d : Diagnostic}
    (refused : Program.ofTokens limits text = .error d) :
    d.fault.isOrdinary = true ∨ EndsOpen text.tokens d := by
  rcases refused_ofTokens refused with ordinary | ⟨s, ran, finished⟩
    | ⟨survey, r, first, second, finished⟩
  · exact .inl ordinary
  · have begun : (Survey.start limits).phase.Covers [] := trivial
    exact Survey.endsOpen_of_finish (Survey.covers_run begun ran) finished
  · have begun : (Reader.start survey).Covers [] := .of_outside rfl rfl
    exact Reader.endsOpen_of_finish (Reader.covers_run begun second)
      (Reader.nested_of_readings first second) (Reader.between_of_readings first second) finished

/-! ## Messages -/

theorem not_isPrefix_append {word front rest : List Char} (other : ¬ word <+: front)
    (longer : ¬ front <+: word) : ¬ word <+: front ++ rest := fun starts =>
  (List.prefix_or_prefix_of_prefix starts (List.prefix_append front rest)).elim other longer

/-- The fault of a definition or a statement is not worded as a missing end. -/
theorem Malformation.not_unterminated {cause : Malformation} (ordinary : cause.isOrdinary = true) :
    ¬ "unterminated".toList <+: cause.message.toList := by
  cases cause with
  | unterminatedLiteral | literalEndsInEscape | unterminated | unrecorded | stated =>
    simp at ordinary
  | literalNotSeparated | characterNotOneByte | missingIterator | noBindings | missingType =>
    decide +kernel
  | _ =>
    -- The first words tell; `simp` cannot unfold a table of so many texts.
    delta message
    simp only [toString, String.toList_append, List.append_assoc]
    exact not_isPrefix_append (by decide +kernel) (by decide +kernel)

/-! ## All openers -/

/-- **Openers are closed, or one that is not is reported.** In tokens that are a program, what stands
behind an opener closes it, whether definitions count as levels or not. Where tokens are refused in
words of a missing end, the place is that of an opener that nothing behind it closes. (A text with a
literal that does not end has no tokens.) -/
theorem Program.openers_closed (limits : Limits) (text : Scanned) (definitions : Bool) :
    (∀ result, Program.ofTokens limits text = .ok result → ∀ t rest, t :: rest <:+ text.tokens →
      t.isOpener = true → Closes definitions rest)
    ∧ ∀ place cause, Program.ofTokens limits text = .error (.malformed place cause) →
      "unterminated".toList <+: cause.message.toList →
      ∃ block t rest, cause = .unterminated block ∧ t :: rest <:+ text.tokens
        ∧ t.isOpener = true ∧ t.kind = .keyword block.opener ∧ t.place = place
        ∧ ¬ Closes definitions rest := by
  refine ⟨fun result ok t rest behind opens => closes_of_ofTokens ok behind opens,
    fun place cause refused worded => ?_⟩
  rcases endsOpen_of_ofTokens refused with ordinary | ⟨block, n, fault, opened⟩
  · exact absurd worded (Malformation.not_unterminated ordinary)
  · cases fault
    obtain ⟨t, rest, behind, kind, there, still⟩ := opened.unclosed definitions
    have opens : t.isOpener = true := Token.Key.isOpener_eq ⟨t, kind⟩ ▸ block.isOpener_opener
    exact ⟨block, t, rest, rfl, behind, opens, kind, there, still⟩

/-- A branch whose `;` is missing: the one that is there closes the `bind` inside it. -/
def branchLeftOpen : Scanned :=
  ⟨[⟨.int 1, "1", ⟨1, 1, "t"⟩⟩, ⟨.keyword .branch, "if", ⟨2, 3, "t"⟩⟩, ⟨.int 2, "2", ⟨2, 6, "t"⟩⟩,
    ⟨.keyword .bind, "bind", ⟨2, 8, "t"⟩⟩, ⟨.word, "x", ⟨2, 13, "t"⟩⟩,
    ⟨.keyword .within, "in", ⟨2, 15, "t"⟩⟩, ⟨.keyword .semicolon, ";", ⟨2, 18, "t"⟩⟩], ⟨2, 19, "t"⟩⟩

/-- It is refused at the `if`, which the `;` does not close. The `bind` alone is a program, and there
the `;` closes it. -/
theorem openers_closed_branch :
    Scanned.ofText "1\n  if 2 bind x in ;" "t" = .ok branchLeftOpen
      ∧ Program.ofTokens {} branchLeftOpen
        = .error (.malformed ⟨2, 3, "t"⟩ (.unterminated .whenTrue))
      ∧ (∃ t rest, t :: rest <:+ branchLeftOpen.tokens ∧ t.isOpener = true
        ∧ t.kind = .keyword .branch ∧ t.place = ⟨2, 3, "t"⟩ ∧ ¬ Closes true rest)
      ∧ Closes true (branchLeftOpen.tokens.drop 4) := by
  have refused : Program.ofTokens {} branchLeftOpen
      = .error (.malformed ⟨2, 3, "t"⟩ (.unterminated .whenTrue)) := rfl
  refine ⟨by decide +kernel, refused, ?_, ?_⟩
  · obtain ⟨block, t, rest, cause, behind, opens, kind, there, still⟩ :=
      (Program.openers_closed {} branchLeftOpen true).2 _ _ refused (by decide +kernel)
    cases cause
    exact ⟨t, rest, behind, opens, kind, there, still⟩
  · let inner : Scanned := ⟨branchLeftOpen.tokens.drop 3, branchLeftOpen.stop⟩
    obtain ⟨result, ok⟩ : ∃ result, Program.ofTokens {} inner = .ok result := ⟨_, rfl⟩
    exact (Program.openers_closed {} inner true).1 result ok _ _ (List.suffix_refl _) rfl

end PinnedStack
