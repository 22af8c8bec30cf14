import Mathlib.Logic.ExistsUnique
import PinnedStack.Proofs.Grammar.Reading

/-!
# Blocks are read by their grammar

* `Reader.exists_builds` — what is read, up to a token that starts no statement, is statements.
* `Reader.Splits.blockEnds` — where a block has to end, a keyword behind the statements ends it.
* `Frame.ends` — the keywords that end a block. `Reader.readBlock` — the tokens up to one of them.
* `Reader.readBlock_grammar` — a block is read just if it is statements, in one way, and gives their
  nodes.
-/

namespace PinnedStack

open Token (Key Word Atom)

/-- The keywords that end a block. -/
def Frame.ends : Frame → List Keyword
  | whenTrue _ _ => [.otherwise, .semicolon]
  | loopCondition _ _ _ => [.body]
  | _ => [.semicolon]

namespace Reader

variable {g : Globals} {r next out : Reader} {s : Supply} {t : Token} {depth : Nat}
  {xs : List Token}

/-! ## Nothing else is read -/

/-- A token in a block that starts no statement ends the block. -/
theorem exists_end_of_step (phase : r.phase = .statement) {b : OpenBlock} {outer : List OpenBlock}
    (blocks : r.blocks = b :: outer) (stop : t.begins = false) (ok : step g r t = .ok next) :
    ∃ k ∈ b.frame.ends, t.kind = .keyword k := by
  obtain ⟨frame, nodes⟩ := b
  have starts : ∀ {k}, t.kind = .keyword k → (k == .branch || k == .loop || k == .bind) = false :=
    fun kind => (Key.begins_eq ⟨t, kind⟩).symm.trans stop
  cases step_moves (g := g) ok with
  | leaf _ plain => rw [Atom.begins ⟨t, plain⟩] at stop; cases stop
  | branch _ kind | loop _ kind | bind _ kind => cases starts kind
  | close _ kind blocks' closed =>
    obtain ⟨rfl, rfl⟩ := List.cons.inj (blocks.symm.trans blocks')
    cases frame with
    | loopCondition => cases closed
    | _ => exact ⟨.semicolon, by simp [Frame.ends], kind⟩
  | otherwise _ kind blocks' =>
    obtain ⟨eq, rfl⟩ := List.cons.inj (blocks.symm.trans blocks')
    cases eq
    exact ⟨.otherwise, by simp [Frame.ends], kind⟩
  | body _ kind blocks' =>
    obtain ⟨eq, rfl⟩ := List.cons.inj (blocks.symm.trans blocks')
    cases eq
    exact ⟨.body, by simp [Frame.ends], kind⟩
  | stray _ _ none | function _ _ none | definition _ _ _ none =>
    rw [blocks] at none
    cases none
  | inHead other | headDone other | inPlain other | plainDone other | iterator other | name other
    | within other =>
    rw [phase] at other
    cases other

/-- Names up to the keyword behind them bind. -/
theorem exists_names {pins : List Pin} {opener : Place} {ts : List Token}
    (phase : r.phase = .names pins opener) (ok : run g r ts = .ok out)
    (done : out.phase = .statement) :
    ∃ names : List Word, ∃ more last rest, ∃ m : Key .within,
      BindsAll g .runtime r.supply names.unattach more last ∧ pins ++ more ≠ []
      ∧ ts = names.unattach ++ m.1 :: rest
      ∧ run g ((r.after last (pinNodes (pins ++ more) opener)).within last
          (.bindBody (pins ++ more) opener) []) rest = .ok out := by
  induction ts generalizing r pins with
  | nil =>
    cases ok
    rw [phase] at done
    cases done
  | cons t ts ih =>
    rw [run] at ok
    split at ok
    case h_2 => cases ok
    rename_i next here
    unfold step at here
    rw [phase] at here
    simp only [bindToken] at here
    split at here
    · rename_i kind
      unfold openBind at here
      split at here
      · cases here
      · rename_i some
        cases here
        refine ⟨[], [], r.supply, ts, ⟨t, kind⟩, .nil _, by simpa using some, rfl, ?_⟩
        rw [List.append_nil, ← ok]
        congr 1
        cases h : r.blocks <;> simp [after, add, within, push, h]
    · rename_i word
      split at here
      · rename_i p supply bound
        cases here
        obtain ⟨names, more, last, rest, m, others, any, rfl, onward⟩ := ih rfl ok
        refine ⟨⟨t, word⟩ :: names, p :: more, last, rest, m,
          .cons (bindName_eq_ok.1 bound) others, by simp, rfl, ?_⟩
        rw [List.append_assoc, after_within_eq r supply] at onward
        exact onward
      · cases here
    · cases here

/-- The tokens are statements, which stand for nodes, up to one that starts none. -/
def Splits (g : Globals) (s : Supply) (ts : List Token) : Prop :=
  ∃ ss nodes last, Builds g s ss nodes last
    ∧ (ts = spellAll ss ∨ ∃ t rest, t.begins = false ∧ ts = spellAll ss ++ t :: rest)

/-- A statement in front of such tokens is the first of them. -/
theorem Splits.statement {s' : Supply} {made : List Node} {ts : List Token} (h : Splits g s' ts)
    (st : Statement) (builds : ∀ {ss nodes last}, Builds g s' ss nodes last →
      Builds g s (st :: ss) (made ++ nodes) last) : Splits g s (st.spell ++ ts) := by
  obtain ⟨ss, nodes, last, tail, ends⟩ := h
  refine ⟨st :: ss, _, last, builds tail, ?_⟩
  rw [spellAll]
  rcases ends with rfl | ⟨t, rest, stop, rfl⟩
  · exact .inl rfl
  · exact .inr ⟨t, rest, stop, (List.append_assoc ..).symm⟩

/-- The tokens are statements, which stand for nodes, and a keyword that ends the block they are in,
from where the tokens behind it are read. -/
def BlockEnds (g : Globals) (r : Reader) (frame : Frame) (ts : List Token) (out : Reader) : Prop :=
  ∃ ss nodes last k rest, ∃ m : Key k, Builds g r.supply ss nodes last ∧ k ∈ frame.ends
    ∧ ts = spellAll ss ++ m.1 :: rest
    ∧ ∃ next, (r.after last nodes).keyword k m.1.place = .ok next ∧ run g next rest = .ok out

/-- What is read in a block is statements to the end, or a keyword behind them ends the block. -/
theorem Splits.after_or_blockEnds {frame : Frame} {before : List Node} {outer : List OpenBlock}
    {ts : List Token} (h : Splits g r.supply ts) (phase : r.phase = .statement)
    (blocks : r.blocks = ⟨frame, before⟩ :: outer) (ok : run g r ts = .ok out) :
    (∃ ss nodes last, Builds g r.supply ss nodes last ∧ ts = spellAll ss ∧ out = r.after last nodes)
      ∨ BlockEnds g r frame ts out := by
  obtain ⟨ss, nodes, last, builds, eq⟩ := h
  have onward := run_of_builds builds phase
  rcases eq with rfl | ⟨t, rest, stop, rfl⟩
  · have all := onward []
    rw [List.append_nil, ok] at all
    cases all
    exact .inl ⟨ss, nodes, last, builds, rfl, rfl⟩
  · rw [onward, run] at ok
    split at ok
    · rename_i next here
      have added : (r.after last nodes).blocks = ⟨frame, before ++ nodes⟩ :: outer := by
        rw [after_cons blocks]
      obtain ⟨k, ends, kind⟩ := exists_end_of_step (by simpa) added stop here
      exact .inr ⟨ss, nodes, last, k, rest, ⟨t, kind⟩, builds, ends, rfl, next,
        (step_mark (by simpa) ⟨t, kind⟩).symm.trans here, ok⟩
    · cases ok

/-- A block has to end where fewer blocks are open once all is read. -/
theorem Splits.blockEnds {q : Reader} {frame : Frame} {before : List Node} {ts : List Token}
    (h : Splits g s ts) (ok : run g (q.within s frame before) ts = .ok out)
    (low : out.blocks.length ≤ q.blocks.length) :
    BlockEnds g (q.within s frame before) frame ts out := by
  rcases h.after_or_blockEnds rfl rfl ok with ⟨ss, nodes, last, -, -, rfl⟩ | reads
  · rw [after_length] at low
    simp only [within, List.length_cons] at low
    omega
  · exact reads

/-- What is read up to a token that starts no statement is statements. The induction is on a bound
of the length, since a statement holds the blocks inside it. -/
theorem exists_builds (n : Nat) : ∀ {ts : List Token} {r : Reader}, ts.length ≤ n →
    r.phase = .statement → run g r ts = .ok out → out.phase = .statement →
    out.blocks.length ≤ r.blocks.length → Splits g r.supply ts := by
  induction n with
  | zero =>
    intro ts r short phase ok done low
    obtain rfl := List.eq_nil_of_length_eq_zero (Nat.le_zero.1 short)
    exact ⟨[], [], _, .nil _, .inl rfl⟩
  | succ n ih =>
    -- A block inside has to end, since fewer blocks are open where the tokens do.
    have block : ∀ {q : Reader} {s : Supply} {frame : Frame} {ts : List Token}, ts.length ≤ n →
        run g (q.within s frame []) ts = .ok out → out.blocks.length ≤ q.blocks.length →
        out.phase = .statement → BlockEnds g (q.within s frame []) frame ts out :=
      fun short ok low done => Splits.blockEnds (ih short rfl ok done (Nat.le_succ_of_le low)) ok low
    intro ts r short phase ok done low
    cases ts with
    | nil => exact ⟨[], [], _, .nil _, .inl rfl⟩
    | cons t ts =>
      -- Once a statement has been read, the tokens behind it are fewer.
      have join : ∀ (st : Statement) {s : Supply} {made : List Node} {rest : List Token},
          t :: ts = st.spell ++ rest → run g (r.after s made) rest = .ok out →
          (∀ {ss nodes last}, Builds g s ss nodes last →
            Builds g r.supply (st :: ss) (made ++ nodes) last) → Splits g r.supply (t :: ts) := by
        intro st s made rest eq onward builds
        obtain ⟨first, more, first_eq, -⟩ := st.exists_spell_eq
        have fewer : rest.length ≤ n := by
          have total := congrArg List.length eq
          simp only [first_eq, List.length_append, List.length_cons] at total short
          omega
        have tail := ih fewer (by simpa) onward done (by simpa)
        rw [after_supply] at tail
        exact eq ▸ tail.statement st builds
      by_cases begins : t.begins = false
      · exact ⟨[], [], _, .nil _, .inr ⟨t, ts, begins, rfl⟩⟩
      have fewer : ts.length ≤ n := Nat.le_of_succ_le_succ short
      rw [run] at ok
      split at ok
      case h_2 => cases ok
      rename_i next here
      by_cases atom : ∀ k, t.kind ≠ .keyword k
      · obtain ⟨node, supply, leaf, rfl⟩ := (step_atom_eq_ok phase ⟨t, atom⟩).1 here
        exact join (.atom ⟨t, atom⟩) rfl ok fun tail => .atom leaf tail
      obtain ⟨k, kind⟩ : ∃ k, t.kind = .keyword k := by simpa using atom
      cases k with
      | branch =>
        let opener : Key .branch := ⟨t, kind⟩
        rw [step_branch phase opener] at here
        cases here
        obtain ⟨yes, left, between, k, rest, m, first, ends, rfl, q, keyword, onward⟩ :=
          block fewer ok low done
        simp only [Frame.ends, List.mem_cons, List.not_mem_nil, or_false] at ends
        rcases ends with rfl | rfl
        · rw [after_within, List.nil_append, keyword_otherwise] at keyword
          cases keyword
          have fewer : rest.length ≤ n := by simp at fewer; omega
          obtain ⟨no, right, middle, k, rest, m', second, ends, rfl, q, keyword, onward⟩ :=
            block fewer onward low done
          obtain rfl := List.mem_singleton.1 ends
          rw [after_within, List.nil_append, keyword_whenFalse phase] at keyword
          cases keyword
          refine join (.ifElse opener yes m no m') (by simp [Statement.spell, opener]) onward
            fun tail => ?_
          cases left with
          | nil => exact .ifNo first second tail
          | cons => exact .ifBoth first second tail
        · rw [after_within, List.nil_append, keyword_whenTrue phase] at keyword
          cases keyword
          exact join (.ifThen opener yes m) (by simp [Statement.spell, opener]) onward
            fun tail => .ifThen first tail
      | loop =>
        let opener : Key .loop := ⟨t, kind⟩
        rw [step_loop phase opener] at here
        cases here
        cases ts with
        | nil => cases ok; cases done
        | cons name ts =>
          rw [run] at ok
          split at ok
          case h_2 => cases ok
          rename_i next here
          obtain ⟨word, p, entered, bound, rfl⟩ := step_iterator_eq_ok.1 here
          have fewer : ts.length ≤ n := by simp at fewer; omega
          obtain ⟨condition, left, between, k, rest, m, first, ends, rfl, q, keyword, onward⟩ :=
            block fewer ok low done
          obtain rfl := List.mem_singleton.1 ends
          rw [after_within, List.nil_append, keyword_body] at keyword
          cases keyword
          have fewer : rest.length ≤ n := by simp at fewer; omega
          obtain ⟨body, right, middle, k, rest, m', second, ends, rfl, q, keyword, onward⟩ :=
            block fewer onward low done
          obtain rfl := List.mem_singleton.1 ends
          rw [after_within, List.nil_append, keyword_loopBody phase
            (second.live_eq.trans (first.live_eq.trans bound.live_eq))] at keyword
          cases keyword
          exact join (.loop opener ⟨name, word⟩ condition m body m')
            (by simp [Statement.spell, opener]) onward fun tail => .loop bound first second tail
      | bind =>
        let opener : Key .bind := ⟨t, kind⟩
        rw [step_bind phase opener] at here
        cases here
        obtain ⟨names, pins, entered, rest, split, bound, any, rfl, read⟩ :=
          exists_names rfl ok done
        rw [List.nil_append, after_within_eq r r.supply] at read
        have fewer : rest.length ≤ n := by simp at fewer; omega
        obtain ⟨body, inner, middle, k, rest, m, first, ends, rfl, q, keyword, onward⟩ :=
          block fewer read (by simpa using low) done
        obtain rfl := List.mem_singleton.1 ends
        rw [after_within, List.nil_append,
          keyword_bindBody (by simpa) (first.live_eq.trans bound.live_eq)] at keyword
        cases keyword
        have some : names ≠ [] := by
          rintro rfl
          cases bound
          exact any rfl
        rw [after_after, ← List.append_assoc] at onward
        exact join (.bind opener names some split body m)
          (by simp [Statement.spell, opener]) onward fun tail => .bind bound first tail
      | _ => exact absurd (by simp [Token.begins, kind]) begins

/-! ## A whole block -/

/-- Does the token end the block at the given depth? -/
def ended (r : Reader) (depth : Nat) (ends : List Keyword) (t : Token) : Bool :=
  match r.phase, t.kind with
  | .statement, .keyword k => r.blocks.length == depth && ends.contains k
  | _, _ => false

/-- Reads tokens up to the keyword that ends the block at the given depth. -/
def readBlock (g : Globals) (depth : Nat) (ends : List Keyword) (r : Reader) :
    List Token → Option (Reader × Token × List Token)
  | [] => none
  | t :: ts =>
      if r.ended depth ends t then some (r, t, ts)
      else
        match step g r t with
        | .ok next => readBlock g depth ends next ts
        | .error _ => none

variable {ends : List Keyword} {stop : Token} {rest : List Token}

theorem ended_iff : r.ended depth ends t = true
    ↔ r.phase = .statement ∧ r.blocks.length = depth ∧ ∃ k ∈ ends, t.kind = .keyword k := by
  unfold ended
  split
  · rename_i phase kind
    simp [phase, kind]
  · rename_i other
    constructor
    · intro eq
      cases eq
    · rintro ⟨phase, -, k, -, kind⟩
      exact absurd kind (other k phase)

/-- What is read of a block is read in the same way of the whole text. -/
theorem readBlock_eq_some {ts : List Token}
    (ok : readBlock g depth ends r ts = some (out, stop, rest)) :
    out.ended depth ends stop = true
      ∧ ∃ read, ts = read ++ stop :: rest ∧ run g r read = .ok out := by
  induction ts generalizing r with
  | nil => cases ok
  | cons t ts ih =>
    unfold readBlock at ok
    split at ok
    · rename_i last
      cases ok
      exact ⟨last, [], rfl, rfl⟩
    · split at ok
      · rename_i next here
        obtain ⟨last, read, rfl, ran⟩ := ih ok
        exact ⟨last, t :: read, rfl, by simp only [run, here, ran]⟩
      · cases ok

theorem Inside.readBlock_eq (h : Inside g depth r xs next)
    (stops : ∀ k ∈ ends, ∀ t : Token, t.kind = .keyword k → t.begins = false) (ys : List Token) :
    readBlock g depth ends r (xs ++ ys) = readBlock g depth ends next ys := by
  induction h with
  | nil => rfl
  | cons stay step inner ih =>
    rename_i r next last t ts
    have onward : r.ended depth ends t = false := by
      refine Bool.eq_false_iff.2 fun last => ?_
      obtain ⟨phase, deep, k, mem, kind⟩ := ended_iff.1 last
      have starts := stay phase (Nat.le_of_eq deep)
      rw [stops k mem t kind] at starts
      cases starts
    simp only [List.cons_append, readBlock, onward, step, ih]
    rfl

theorem begins_of_mem_ends (frame : Frame) :
    ∀ k ∈ frame.ends, ∀ t : Token, t.kind = .keyword k → t.begins = false := by
  intro k mem t kind
  have starts := Key.begins_eq ⟨t, kind⟩
  cases frame with
  | whenTrue =>
    rcases List.mem_cons.1 mem with rfl | mem
    · exact starts
    · cases List.mem_singleton.1 mem
      exact starts
  | _ =>
    cases List.mem_singleton.1 mem
    exact starts

/-- **A block is read by its grammar.** In a block that is open, with whatever nodes in it already,
statements and a keyword that ends the block are read up to this keyword just if the statements stand
for nodes, and these are the nodes that are added. What is read of a block is read so of the whole
text, and it is statements and such a keyword in one way only. Branches and loops are numbered in the
order of their keywords. -/
theorem readBlock_grammar {frame : Frame} {before : List Node} {outer : List OpenBlock}
    (phase : r.phase = .statement) (blocks : r.blocks = ⟨frame, before⟩ :: outer) :
    (∀ ss stop rest, (∃ k ∈ frame.ends, stop.kind = .keyword k) → ∀ read,
        readBlock g (outer.length + 1) frame.ends r (spellAll ss ++ stop :: rest) = some read
          ↔ ∃ nodes last, Builds g r.supply ss nodes last ∧ read
            = ({ r with supply := last, blocks := ⟨frame, before ++ nodes⟩ :: outer }, stop, rest))
      ∧ (∀ ts q stop rest,
        readBlock g (outer.length + 1) frame.ends r ts = some (q, stop, rest) →
          run g r ts = run g q (stop :: rest) ∧ ∃! ss, ts = spellAll ss ++ stop :: rest
            ∧ (∃ k ∈ frame.ends, stop.kind = .keyword k)
            ∧ ∃ nodes last, Builds g r.supply ss nodes last
              ∧ q = { r with supply := last, blocks := ⟨frame, before ++ nodes⟩ :: outer })
      ∧ ∀ ss nodes last, Builds g r.supply ss nodes last →
        turnsOf nodes = (turnKeywords (spellAll ss)).zipIdx r.supply.nextLabel := by
  have stops := begins_of_mem_ends frame
  have deep : r.blocks.length = outer.length + 1 := by rw [blocks]; rfl
  have added : ∀ {nodes last}, r.after last nodes
      = { r with supply := last, blocks := ⟨frame, before ++ nodes⟩ :: outer } :=
    fun {nodes last} => after_cons blocks last nodes
  -- Statements are read to their end, where the keyword behind them ends the block.
  have reads : ∀ {ss nodes last stop}, Builds g r.supply ss nodes last →
      (∃ k ∈ frame.ends, stop.kind = .keyword k) → ∀ rest,
      readBlock g (outer.length + 1) frame.ends r (spellAll ss ++ stop :: rest)
        = some (r.after last nodes, stop, rest) := by
    intro ss nodes last stop builds ends rest
    rw [(adds_of_builds builds r phase rfl (Nat.le_of_eq deep.symm)).readBlock_eq stops, readBlock,
      if_pos (ended_iff.2 ⟨by simpa, by simpa, ends⟩)]
  have only : ∀ {ts q stop rest},
      readBlock g (outer.length + 1) frame.ends r ts = some (q, stop, rest) →
      ∃ ss nodes last, ts = spellAll ss ++ stop :: rest ∧ (∃ k ∈ frame.ends, stop.kind = .keyword k)
        ∧ Builds g r.supply ss nodes last ∧ q = r.after last nodes := by
    intro ts q stop rest ok
    obtain ⟨last, read, rfl, ran⟩ := readBlock_eq_some ok
    obtain ⟨done, low, ends⟩ := ended_iff.1 last
    have splits := exists_builds read.length (Nat.le_refl _) phase ran done (by omega)
    rcases splits.after_or_blockEnds phase blocks ran with
      ⟨ss, nodes, supply, builds, rfl, rfl⟩ | ⟨ss, nodes, supply, k, more, m, builds, early, rfl, -⟩
    · exact ⟨ss, nodes, supply, rfl, ends, builds, rfl⟩
    · rw [List.append_assoc, List.cons_append, reads builds ⟨k, early, m.2⟩] at ok
      have lengths := congrArg (·.2.2.length) (Option.some.inj ok)
      simp only [List.length_append, List.length_cons] at lengths
      omega
  refine ⟨fun ss stop rest ends read => ?_, fun ts q stop rest ok => ?_,
    fun ss nodes last builds => builds.turns_eq.1⟩
  · constructor
    · intro ok
      obtain ⟨q, stop', rest'⟩ := read
      obtain ⟨ss', nodes, last, same, ⟨k, mem, kind⟩, builds, rfl⟩ := only ok
      obtain ⟨l, mem', kind'⟩ := ends
      obtain ⟨rfl, rfl, rfl⟩ :=
        spellAll_inj ss ss' (stops l mem' stop kind') (stops k mem stop' kind) same
      exact ⟨nodes, last, builds, by rw [added]⟩
    · rintro ⟨nodes, last, builds, rfl⟩
      rw [reads builds ends, added]
  · obtain ⟨ss, nodes, last, rfl, ends, builds, rfl⟩ := only ok
    refine ⟨run_of_builds builds phase _, ss, ⟨rfl, ends, nodes, last, builds, added⟩, ?_⟩
    rintro ss' ⟨same, -⟩
    obtain ⟨k, mem, kind⟩ := ends
    have starts := stops k mem stop kind
    exact (spellAll_inj ss ss' starts starts same).1.symm

end Reader

/-- Blocks of all forms in an arm of a branch, with a word behind that arm. -/
def nestedBlocks : String :=
  "loop i i 3 < do 1 if else 2 drop ; ; 7 8 bind x y:Number in if x else y ; ; ; 5"

/-- The reading at the start of an arm. -/
def inArm : Reader :=
  (Reader.start (.start {})).within (Supply.ofLimits {}).label.2 (.whenTrue 0 .builtin) []

/-- The arm is read up to its own `;`, with three numbers handed out, in one way only. -/
theorem readBlock_grammar_nestedBlocks :
    ∃ scanned q stop rest, Scanned.ofText nestedBlocks "t" = .ok scanned
      ∧ Reader.readBlock .initial 1 (Frame.whenTrue 0 .builtin).ends inArm scanned.tokens
        = some (q, stop, rest)
      ∧ q.supply.nextLabel = 4 ∧ rest.map (·.lexeme) = ["5"]
      ∧ ∃! ss, scanned.tokens = spellAll ss ++ stop :: rest
        ∧ (∃ k ∈ (Frame.whenTrue 0 .builtin).ends, stop.kind = .keyword k)
        ∧ ∃ nodes last, Builds .initial inArm.supply ss nodes last
          ∧ q = { inArm with supply := last, blocks := [⟨.whenTrue 0 .builtin, nodes⟩] } := by
  let read (s : Scanned) :=
    Reader.readBlock .initial 1 (Frame.whenTrue 0 .builtin).ends inArm s.tokens
  have holds : (Scanned.ofText nestedBlocks "t").toOption.any (fun s =>
      (read s).map (fun r => (r.1.supply.nextLabel, r.2.2.map (·.lexeme))) == some (4, ["5"]))
      = true := by decide +kernel
  cases lexed : Scanned.ofText nestedBlocks "t" with
  | error d =>
    rw [lexed] at holds
    cases holds
  | ok scanned =>
    rw [lexed] at holds
    obtain ⟨⟨q, stop, rest⟩, here, eq⟩ := Option.map_eq_some_iff.1 (beq_iff_eq.1 holds)
    obtain ⟨label, behind⟩ := Prod.mk.inj eq
    have grammar := Reader.readBlock_grammar (g := .initial) (r := inArm) rfl rfl
    exact ⟨scanned, q, stop, rest, rfl, here, label, behind, (grammar.2.1 _ q stop rest here).2⟩

end PinnedStack
