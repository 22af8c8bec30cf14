import PinnedStack.Proofs.Tree.Nesting

/-!
# The two readings agree on where functions stand

* `Stage` — what both readings know of a point of the text; `Survey.Phase.stage`, `Reader.stage`.
* `Survey.step_stage`, `Reader.moves_stage` — one token changes the stage of both alike.
* `Reader.calls` — all functions, those read, the one being read and those ahead. No token changes
  them.
* `Program.Formed` — what holds of every program that a text spells, by
  `Program.formed_of_ofTokens`.
-/

namespace PinnedStack

def Func.call (f : Func) : Call := ⟨f.label, f.name, f.contract⟩

/-- A point of the text, as far as definitions are concerned: outside of them, in a plain one,
before the body of a function, or in a body, with the number of `;` that end it. -/
inductive Stage where
  | between
  | plain
  | heading
  | body (depth : Nat)
deriving DecidableEq

def Stage.next : Stage → Token.Kind → Stage
  | between, .keyword k =>
      match Form.ofKeyword? k with
      | some .function => heading
      | some (.plain _) => plain
      | none => between
  | between, _ => between
  | plain, kind => if kind = .keyword .semicolon then between else plain
  | heading, kind => if kind = .keyword .closeParen then body 1 else heading
  | body depth, .keyword .branch => body (depth + 1)
  | body depth, .keyword .loop => body (depth + 1)
  | body depth, .keyword .bind => body (depth + 1)
  | body depth, .keyword .semicolon => if depth = 1 then between else body (depth - 1)
  | body depth, _ => body depth

/-- Does a token end a function? -/
def Stage.Ends (stage : Stage) (kind : Token.Kind) : Prop :=
  stage = .body 1 ∧ kind = .keyword .semicolon

/-! ## The first reading -/

namespace Survey

def Phase.stage : Survey.Phase → Stage
  | .between => .between
  | .naming .function _ => .heading
  | .naming (.plain _) _ => .plain
  | .collecting _ _ _ => .plain
  | .opening _ => .heading
  | .inputs _ _ _ => .heading
  | .outputs _ _ _ _ => .heading
  | .body _ _ _ depth => .body depth

variable {s next : Survey} {t : Token}

theorem advance_stage {g : Globals} {phase after : Survey.Phase}
    (ok : advance g t phase = .ok after) (inside : ¬ phase.stage.Ends t.kind)
    (plain : ∀ p n ts, phase = .collecting p n ts → t.kind ≠ .keyword .semicolon) :
    after.stage = phase.stage.next t.kind := by
  cases advance_eq_ok.1 ok with
  | between other =>
    cases kind : t.kind with
    | keyword k => simp [Phase.stage, Stage.next, other k kind]
    | _ => rfl
  | @opener k form kind defines =>
    rw [kind]
    cases form <;> simp [Phase.stage, Stage.next, defines]
  | plainName word | functionName word | namedInput word | anonymousInput word | output word =>
    simp [Phase.stage, Stage.next, word]
  | collected => simp [Phase.stage, Stage.next, plain _ _ _ rfl]
  | openParen kind | dashes kind | anonymous kind | named _ kind =>
    simp [Phase.stage, Stage.next, kind]
  | block opens kind =>
    rw [kind]
    rcases opens with rfl | rfl | rfl <;> rfl
  | @semicolon _ _ _ depth kind =>
    have deep : depth ≠ 1 := fun eq => inside ⟨by rw [Phase.stage, eq], kind⟩
    simp [Phase.stage, Stage.next, kind, deep]
  | inside flat =>
    cases kind : t.kind with
    | keyword k =>
      have other := flat k kind
      cases k <;> simp_all [Phase.stage, Stage.next]
    | _ => rfl

/-- A token ends a plain definition, or a function, or the phase is advanced. -/
theorem step_cases (ok : s.step t = .ok next) :
    (∃ plain naming tokens, s.phase = .collecting plain naming tokens
        ∧ t.kind = .keyword .semicolon
        ∧ s.definePlain plain naming.name tokens.reverse = .ok next
        ∧ next.phase = .between ∧ next.heads = s.heads)
      ∨ (∃ naming contract params, s.phase = .body naming contract params 1
        ∧ t.kind = .keyword .semicolon ∧ s.defineFunction naming contract params = .ok next
        ∧ next.phase = .between ∧ next.heads.length = s.heads.length + 1)
      ∨ ∃ after, advance s.globals t s.phase = .ok after ∧ next = { s with phase := after }
        ∧ ¬ s.phase.stage.Ends t.kind
        ∧ ∀ p n ts, s.phase = .collecting p n ts → t.kind ≠ .keyword .semicolon := by
  cases step_moves ok with
  | plain phase kind defined =>
    obtain ⟨supply, meaning, globals, -, -, eq⟩ := definePlain_eq_ok.1 defined
    exact .inl ⟨_, _, _, phase, kind, defined, by rw [eq], by rw [eq]⟩
  | function phase kind defined =>
    obtain ⟨globals, -, eq⟩ := defineFunction_eq_ok.1 defined
    exact .inr (.inl ⟨_, _, _, phase, kind, defined, by rw [eq], by simp [eq]⟩)
  | onward advanced plain function =>
    refine .inr (.inr ⟨_, advanced, rfl, ?_, plain⟩)
    rintro ⟨stage, kind⟩
    cases phase : s.phase with
    | body naming contract params depth =>
      rw [phase] at stage
      cases stage
      exact function naming contract params phase kind
    | naming form opener => cases form <;> simp [phase, Phase.stage] at stage
    | _ => simp [phase, Phase.stage] at stage

/-- One token takes the first reading to the next stage and records a function where one ends. -/
theorem step_stage (ok : s.step t = .ok next) :
    next.phase.stage = s.phase.stage.next t.kind
      ∧ (s.phase.stage.Ends t.kind → next.heads.length = s.heads.length + 1)
      ∧ (¬ s.phase.stage.Ends t.kind → next.heads.length = s.heads.length) := by
  obtain ⟨plain, naming, tokens, phase, kind, -, after, heads⟩
    | ⟨naming, contract, params, phase, kind, -, after, heads⟩
    | ⟨after, here, rfl, inside, plain⟩ := step_cases ok
  · simp [phase, kind, after, heads, Phase.stage, Stage.next, Stage.Ends]
  · simp [phase, kind, after, heads, Phase.stage, Stage.next, Stage.Ends]
  · exact ⟨advance_stage here inside plain, fun ends => absurd ends inside, fun _ => rfl⟩

end Survey

/-! ## The second reading -/

/-- The function that a block is the body of. -/
def Frame.head? : Frame → Option Head
  | .function head _ _ _ => some head
  | _ => none

namespace Reader

/-- The function whose body is open. -/
def definedBy (blocks : List OpenBlock) : Option Head := blocks.getLast?.bind (·.frame.head?)

theorem definedBy_extend (main : List Node) (blocks : List OpenBlock) (nodes : List Node) :
    definedBy (extend main blocks nodes).2 = definedBy blocks := by
  match blocks with
  | [] => rfl
  | [_] => rfl
  | _ :: _ :: _ => simp [definedBy, extend]

theorem definedBy_cons {b : OpenBlock} (inner : b.frame.head? = none) (outer : List OpenBlock) :
    definedBy (b :: outer) = definedBy outer := by
  cases outer with
  | nil => simp [definedBy, inner]
  | cons _ _ => simp [definedBy]

theorem length_extend (main : List Node) (blocks : List OpenBlock) (nodes : List Node) :
    (extend main blocks nodes).2.length = blocks.length := by cases blocks <;> rfl

/-- Blocks that were announced and are not open yet. -/
def Phase.pending : Reader.Phase → Nat
  | .iterator _ => 1
  | .names _ _ => 1
  | _ => 0

/-- The function in whose text the reading is. -/
def current (r : Reader) : Option Head :=
  match r.phase with
  | .head head _ => some head
  | _ => definedBy r.blocks

def stage (r : Reader) : Stage :=
  match r.phase with
  | .head _ _ => .heading
  | .plain => .plain
  | phase =>
      match definedBy r.blocks with
      | none => .between
      | some _ => .body (r.blocks.length + phase.pending)

/-- All functions: those read, the one being read and those ahead. -/
def calls (r : Reader) : List Call :=
  r.functions.map Func.call ++ (r.current.toList ++ r.heads).map Head.call

variable {callees : List Call} {capacity : Nat} {r next : Reader} {t : Token}

/-- Between the tokens of a head or of a plain definition the open blocks say where the reading
is. -/
theorem stage_eq (head : ∀ h o, r.phase ≠ .head h o) (plain : r.phase ≠ .plain) :
    r.stage = match definedBy r.blocks with
      | none => .between
      | some _ => .body (r.blocks.length + r.phase.pending) := by
  unfold stage
  cases phase : r.phase with
  | head h o => exact absurd phase (head h o)
  | plain => exact absurd phase plain
  | _ => rfl

theorem current_eq (head : ∀ h o, r.phase ≠ .head h o) : r.current = definedBy r.blocks := by
  unfold current
  cases phase : r.phase with
  | head h o => exact absurd phase (head h o)
  | _ => rfl

/-- A block that is closed gives nodes to the one around it, or it was the body of a function. -/
theorem close_cases {b : OpenBlock} {outer : List OpenBlock} (closed : r.close b outer = some next) :
    (b.frame.head? = none ∧ ∃ supply nodes,
        next = ({ r with supply := supply, blocks := outer } : Reader).add nodes)
      ∨ ∃ head opener firstSlot pins, b.frame = .function head opener firstSlot pins
        ∧ next = { r with
            supply := unpinAll r.supply pins
            blocks := outer
            functions := r.functions ++ [{
              label := head.signature.label
              name := head.name
              contract := head.signature.contract
              named := head.signature.params.isSome
              body := b.nodes ++ unpinNodes pins head.place
              firstSlot := firstSlot
              endSlot := r.supply.nextSlot
              place := head.place }] } := by
  obtain ⟨frame, nodes⟩ := b
  cases frame with
  | function head opener firstSlot pins =>
    cases closed
    exact .inr ⟨head, opener, firstSlot, pins, rfl, rfl⟩
  | loopCondition => cases closed
  | _ =>
    cases closed
    exact .inl ⟨rfl, _, _, rfl⟩

/-- What closing a block does, apart from the nodes. -/
structure Closes (r : Reader) (b : OpenBlock) (outer : List OpenBlock) (next : Reader) : Prop where
  phase : next.phase = r.phase
  heads : next.heads = r.heads
  blocks : definedBy next.blocks = definedBy outer
  length : next.blocks.length = outer.length
  inner : b.frame.head? = none → next.functions = r.functions
  function : ∀ head, b.frame.head? = some head →
    ∃ f, next.functions = r.functions ++ [f] ∧ f.call = head.call

theorem close_closes {b : OpenBlock} {outer : List OpenBlock} (closed : r.close b outer = some next) :
    Closes r b outer next := by
  obtain ⟨inner, supply, nodes, rfl⟩ | ⟨head, opener, firstSlot, pins, frame, rfl⟩ :=
    close_cases closed
  · refine ⟨by simp, by simp, ?_, ?_, by simp, by simp [inner]⟩
    · rw [add_blocks, definedBy_extend]
    · rw [add_blocks, length_extend]
  · refine ⟨rfl, rfl, rfl, rfl, by simp [frame, Frame.head?], fun other eq => ?_⟩
    rw [frame] at eq
    cases eq
    exact ⟨_, rfl, rfl⟩

theorem Nested.head?_eq_none (h : r.Nested callees capacity) (phase : r.phase = .statement)
    {b c : OpenBlock} {outer : List OpenBlock} (blocks : r.blocks = b :: c :: outer) :
    b.frame.head? = none := by
  have chain := h.chain_statement phase
  rw [blocks] at chain
  generalize r.supply.book.live = scope at chain
  generalize r.main = main at chain
  generalize eq : c :: outer = rest at chain
  cases chain with
  | function => cases eq
  | _ => rfl

/-- One token takes the second reading to the next stage. -/
theorem moves_stage {g : Globals} (h : r.Nested callees capacity) (moves : Moves g r t next) :
    next.stage = r.stage.next t.kind := by
  cases moves with
  | leaf phase plain book nextLabel fits =>
    rw [stage_eq (by simp [phase]) (by simp [phase]), stage_eq (by simp [phase]) (by simp [phase]),
      add_blocks, definedBy_extend, length_extend, add_phase]
    cases kind : t.kind with
    | keyword k => exact absurd kind (plain k)
    | _ => cases definedBy r.blocks <;> rfl
  | branch phase kind =>
    rw [stage_eq (r := r.openBranch t.place) (by simp [openBranch, push, phase])
      (by simp [openBranch, push, phase]), stage_eq (by simp [phase]) (by simp [phase]), kind]
    simp only [openBranch, push]
    rw [definedBy_cons rfl]
    cases definedBy r.blocks with
    | none => rfl
    | some _ => simp [phase, Phase.pending, Stage.next]
  | loop phase kind =>
    rw [stage_eq (by simp) (by simp), stage_eq (by simp [phase]) (by simp [phase]), kind]
    cases definedBy r.blocks with
    | none => rfl
    | some _ => simp [phase, Phase.pending, Stage.next]
  | bind phase kind =>
    rw [stage_eq (by simp) (by simp), stage_eq (by simp [phase]) (by simp [phase]), kind]
    cases definedBy r.blocks with
    | none => rfl
    | some _ => simp [phase, Phase.pending, Stage.next]
  | stray phase kind blocks =>
    rw [stage_eq (by simp [phase]) (by simp [phase]), blocks, kind]
    rfl
  | close phase kind blocks closed =>
    rename_i b outer
    have closes := close_closes closed
    rw [stage_eq (by simp [closes.phase, phase]) (by simp [closes.phase, phase]),
      stage_eq (by simp [phase]) (by simp [phase]), closes.blocks, closes.length, closes.phase,
      phase, blocks, kind]
    cases outer with
    | nil => cases definedBy [b] <;> rfl
    | cons c outer =>
      rw [definedBy_cons (h.head?_eq_none phase blocks)]
      cases definedBy (c :: outer) with
      | none => rfl
      | some _ => simp [Phase.pending, Stage.next]
  | otherwise phase kind blocks =>
    rw [stage_eq (by simp [phase]) (by simp [phase]), stage_eq (by simp [phase]) (by simp [phase]),
      blocks, kind]
    simp only
    rw [definedBy_cons rfl, definedBy_cons rfl]
    split <;> rfl
  | body phase kind blocks =>
    rw [stage_eq (by simp [phase]) (by simp [phase]), stage_eq (by simp [phase]) (by simp [phase]),
      blocks, kind]
    simp only
    rw [definedBy_cons rfl, definedBy_cons rfl]
    split <;> rfl
  | function phase kind blocks heads =>
    rw [stage_eq (r := r) (by simp [phase]) (by simp [phase]), blocks, kind]
    rfl
  | definition phase kind form blocks =>
    rw [stage_eq (r := r) (by simp [phase]) (by simp [phase]), blocks, kind]
    simp only [definedBy, List.getLast?_nil, Option.bind_none, Stage.next, form]
    rfl
  | inHead phase kind => simp [stage, phase, Stage.next, kind]
  | headDone phase kind opened =>
    rename_i head opener
    obtain ⟨scope, naming⟩ := h.chain
    rw [phase] at naming
    obtain ⟨-, -, blocks, -⟩ := naming
    obtain ⟨-, -, -, rfl⟩ := openFunction_eq_ok.1 opened
    simp [stage, phase, kind, blocks, definedBy, Frame.head?, Stage.next, Phase.pending]
  | inPlain phase kind => simp [stage, phase, Stage.next, kind]
  | plainDone phase kind =>
    obtain ⟨scope, naming⟩ := h.chain
    rw [phase] at naming
    obtain ⟨-, -, blocks⟩ := naming
    simp [stage, phase, kind, blocks, definedBy, Stage.next]
  | iterator phase kind bound =>
    rw [stage_eq (by simp) (by simp), stage_eq (by simp [phase]) (by simp [phase]), kind]
    simp only [push]
    rw [definedBy_cons rfl]
    cases definedBy r.blocks with
    | none => rfl
    | some _ => simp [phase, Phase.pending, Stage.next]
  | name phase kind bound =>
    rw [stage_eq (by simp) (by simp), stage_eq (by simp [phase]) (by simp [phase]), kind]
    cases definedBy r.blocks with
    | none => rfl
    | some _ => simp [phase, Phase.pending, Stage.next]
  | within phase kind =>
    rw [stage_eq (by simp) (by simp), stage_eq (by simp [phase]) (by simp [phase]), kind]
    simp only [push]
    rw [definedBy_cons rfl, add_blocks, definedBy_extend]
    cases definedBy r.blocks with
    | none => rfl
    | some _ => simp [phase, Phase.pending, Stage.next, length_extend]

/-- One token moves functions from those ahead to those read and changes nothing about them. A
function is read to its end where the first reading records one. -/
theorem moves_calls {g : Globals} (h : r.Nested callees capacity) (moves : Moves g r t next) :
    next.calls = r.calls
      ∧ (r.stage.Ends t.kind → next.functions.length = r.functions.length + 1)
      ∧ (¬ r.stage.Ends t.kind → next.functions.length = r.functions.length) := by
  -- Most tokens change neither the functions read nor the one being read nor those ahead.
  have still : next.functions = r.functions → next.current = r.current → next.heads = r.heads →
      ¬ r.stage.Ends t.kind → next.calls = r.calls
        ∧ (r.stage.Ends t.kind → next.functions.length = r.functions.length + 1)
        ∧ (¬ r.stage.Ends t.kind → next.functions.length = r.functions.length) := by
    intro functions current heads inside
    refine ⟨?_, fun ends => absurd ends inside, fun _ => by rw [functions]⟩
    simp only [calls, functions, current, heads]
  cases moves with
  | leaf phase plain book nextLabel fits =>
    refine still (by simp) ?_ (by simp) fun ends => plain _ ends.2
    rw [current_eq (by simp [phase]), current_eq (by simp [phase]), add_blocks, definedBy_extend]
  | branch phase kind =>
    refine still rfl ?_ rfl fun ends => by simp [Stage.Ends, kind] at ends
    rw [current_eq (r := r.openBranch t.place) (by simp [openBranch, push, phase]),
      current_eq (by simp [phase])]
    exact definedBy_cons rfl _
  | loop phase kind =>
    refine still rfl ?_ rfl fun ends => by simp [Stage.Ends, kind] at ends
    rw [current_eq (by simp), current_eq (by simp [phase])]
  | bind phase kind =>
    refine still rfl ?_ rfl fun ends => by simp [Stage.Ends, kind] at ends
    rw [current_eq (by simp), current_eq (by simp [phase])]
  | stray phase kind blocks =>
    refine still rfl rfl rfl fun ends => ?_
    rw [stage_eq (by simp [phase]) (by simp [phase]), blocks] at ends
    cases ends.1
  | close phase kind blocks closed =>
    rename_i b outer
    have closes := close_closes closed
    have before : r.stage = _ := stage_eq (by simp [phase]) (by simp [phase])
    rw [blocks, phase] at before
    have now : next.current = definedBy outer := by
      rw [current_eq (by simp [closes.phase, phase]), closes.blocks]
    cases inner : b.frame.head? with
    | none =>
      rw [definedBy_cons inner] at before
      refine still (closes.inner inner) ?_ closes.heads fun ends => ?_
      · rw [now, current_eq (by simp [phase]), blocks, definedBy_cons inner]
      · cases outer with
        | nil => simp [ends.1, definedBy] at before
        | cons c outer =>
          rw [ends.1] at before
          split at before
          · cases before
          · simp [Phase.pending] at before
    | some head =>
      obtain ⟨f, functions, same⟩ := closes.function head inner
      cases outer with
      | cons c outer => simp [h.head?_eq_none phase blocks] at inner
      | nil =>
        have opened : definedBy [b] = some head := by simp [definedBy, inner]
        have here : r.current = some head := by
          rw [current_eq (by simp [phase]), blocks, opened]
        have last : r.stage.Ends t.kind := by
          refine ⟨?_, kind⟩
          rw [before, opened]
          rfl
        refine ⟨?_, fun _ => by simp [functions], fun inside => absurd last inside⟩
        simp only [calls, functions, now, here, closes.heads]
        simp [definedBy, same]
  | otherwise phase kind blocks =>
    refine still rfl ?_ rfl fun ends => by simp [Stage.Ends, kind] at ends
    rw [current_eq (by simp [phase]), current_eq (by simp [phase]), blocks, definedBy_cons rfl,
      definedBy_cons rfl]
  | body phase kind blocks =>
    refine still rfl ?_ rfl fun ends => by simp [Stage.Ends, kind] at ends
    rw [current_eq (by simp [phase]), current_eq (by simp [phase]), blocks, definedBy_cons rfl,
      definedBy_cons rfl]
  | function phase kind blocks heads =>
    have none : r.current = none := by
      rw [current_eq (by simp [phase]), blocks]
      rfl
    refine ⟨?_, fun ends => ?_, fun _ => rfl⟩
    · simp only [calls, none, heads]
      simp [current]
    · simp [Stage.Ends, kind] at ends
  | definition phase kind form blocks =>
    refine still rfl ?_ rfl fun ends => ?_
    · rw [current_eq (by simp), current_eq (by simp [phase])]
    · rw [stage_eq (by simp [phase]) (by simp [phase]), blocks] at ends
      cases ends.1
  | inHead phase kind => exact still rfl rfl rfl fun ends => by simp [Stage.Ends, stage, phase] at ends
  | headDone phase kind opened =>
    rename_i head opener
    obtain ⟨scope, naming⟩ := h.chain
    rw [phase] at naming
    obtain ⟨-, -, blocks, -⟩ := naming
    obtain ⟨pins, supply, bound, eq⟩ := openFunction_eq_ok.1 opened
    subst eq
    refine still rfl ?_ rfl fun ends => by simp [Stage.Ends, kind] at ends
    simp [current, phase, blocks, definedBy, Frame.head?]
  | inPlain phase kind => exact still rfl rfl rfl fun ends => kind ends.2
  | plainDone phase kind =>
    refine still rfl ?_ rfl fun ends => by simp [Stage.Ends, stage, phase] at ends
    rw [current_eq (by simp), current_eq (by simp [phase])]
  | iterator phase kind bound =>
    refine still rfl ?_ rfl fun ends => by simp [Stage.Ends, kind] at ends
    rw [current_eq (by simp), current_eq (by simp [phase])]
    exact definedBy_cons rfl _
  | name phase kind bound =>
    refine still rfl ?_ rfl fun ends => by simp [Stage.Ends, kind] at ends
    rw [current_eq (by simp), current_eq (by simp [phase])]
  | within phase kind =>
    refine still (by simp [push]) ?_ (by simp [push]) fun ends => by simp [Stage.Ends, kind] at ends
    rw [current_eq (by simp), current_eq (by simp [phase])]
    simp only [push]
    rw [definedBy_cons rfl, add_blocks, definedBy_extend]

end Reader

/-- A text that ends outside all definitions leaves no block open. -/
theorem Reader.outside_of_finish {r last : Reader} {stop : Place} (stage : r.stage = .between)
    (finished : r.finish stop = .ok last) : r.phase = .statement ∧ r.blocks = [] := by
  unfold finish at finished
  split at finished
  · exact ⟨‹_›, ‹_›⟩
  · cases finished
  · cases finished
  · rename_i phase
    simp [Reader.stage, phase] at stage
  · cases finished
  · cases finished

/-! ## Both readings -/

/-- Both readings are at the same stage, after as many functions. -/
structure Agree (s : Survey) (r : Reader) : Prop where
  stage : s.phase.stage = r.stage
  count : s.heads.length = r.functions.length

theorem Agree.step {s s' : Survey} {r r' : Reader} {g : Globals} {t : Token} {callees : List Call}
    {capacity : Nat} (h : Agree s r) (nested : r.Nested callees capacity)
    (first : s.step t = .ok s') (second : Reader.Moves g r t r') : Agree s' r' := by
  obtain ⟨stage, ends, inside⟩ := Survey.step_stage first
  obtain ⟨-, ends', inside'⟩ := Reader.moves_calls nested second
  refine ⟨?_, ?_⟩
  · rw [stage, Reader.moves_stage nested second, h.stage]
  · by_cases last : s.phase.stage.Ends t.kind
    · rw [ends last, ends' (h.stage ▸ last), h.count]
    · rw [inside last, inside' (h.stage ▸ last), h.count]

/-- Both readings of the same tokens stay at the same stage. -/
theorem Agree.run {s s' : Survey} {r r' : Reader} {g : Globals} {ts : List Token}
    {callees : List Call} {capacity : Nat} (h : Agree s r) (hg : g.Sound callees)
    (nested : r.Nested callees capacity) (first : s.run ts = .ok s')
    (second : Reader.run g r ts = .ok r') : Agree s' r' ∧ r'.calls = r.calls := by
  induction ts generalizing s r with
  | nil =>
    cases first
    cases second
    exact ⟨h, rfl⟩
  | cons t ts ih =>
    simp only [Survey.run] at first
    simp only [Reader.run] at second
    split at first
    · rename_i s₁ one
      split at second
      · rename_i r₁ two
        have moves := Reader.step_moves two
        obtain ⟨agree, calls⟩ := ih (h.step nested one moves)
          (Reader.nested_moves hg nested moves) first second
        exact ⟨agree, calls.trans (Reader.moves_calls nested moves).1⟩
      · cases second
    · cases first

/-- The second reading ends outside all definitions, as the first one does. -/
theorem Reader.between_of_readings {limits : Limits} {text : Scanned} {survey : Survey} {r : Reader}
    (first : Survey.ofTokens limits text = .ok survey)
    (second : Reader.run survey.globals (.start survey) text.tokens = .ok r) :
    r.stage = .between := by
  obtain ⟨whole, between⟩ := Survey.ofTokens_eq_ok first
  have sound := Survey.ofTokens_sound first
  have start := Reader.nested_start (survey.heads.map Head.call) sound.heads (Survey.run_book whole)
  have agree : Agree (.start limits) (.start survey) := ⟨rfl, rfl⟩
  have agree := (agree.run sound.globals start whole second).1
  rw [← agree.stage, between]
  rfl

/-- No block is open at the end of a text. -/
theorem Reader.outside_of_readings {limits : Limits} {text : Scanned} {survey : Survey} {r : Reader}
    (first : Survey.ofTokens limits text = .ok survey)
    (second : Reader.run survey.globals (.start survey) text.tokens = .ok r)
    (finished : r.finish text.stop = .ok r) : r.phase = .statement ∧ r.blocks = [] :=
  Reader.outside_of_finish (Reader.between_of_readings first second) finished

/-- What holds of every program that a text spells. -/
structure Program.Formed (p : Program) (capacity : Nat) : Prop where
  functions : ∀ f ∈ p.functions, f.Formed (p.functions.map Func.call) capacity
  main : Scoped (p.functions.map Func.call) [] 0 capacity p.main.body
  entry : p.main.contract = .empty
  start : p.main.label = "_start"
  labels : p.functions.map (·.label) = (List.range p.functions.length).map functionLabel

theorem Program.Formed.scoped {p : Program} {capacity : Nat} (h : p.Formed capacity) :
    ∀ f ∈ p.functions ++ [p.main],
      ∃ first stop, Scoped (p.functions.map Func.call) [] first stop f.body := by
  intro f mem
  rcases List.mem_append.1 mem with mem | mem
  · exact ⟨_, _, (h.functions f mem).body⟩
  · obtain rfl := List.mem_singleton.1 mem
    exact ⟨_, _, h.main⟩

/-- **A program that a text spells is well-scoped**, and its calls are to its functions. -/
theorem Program.formed_of_ofTokens {limits : Limits} {text : Scanned} {p : Program}
    {tables : Tables} (ok : Program.ofTokens limits text = .ok (p, tables)) :
    p.Formed limits.pinCapacity := by
  obtain ⟨survey, r, first, second, finished, rfl, -⟩ := ofTokens_eq_ok ok
  have sound := Survey.ofTokens_sound first
  obtain ⟨whole, -⟩ := Survey.ofTokens_eq_ok first
  have start := Reader.nested_start (survey.heads.map Head.call) sound.heads (Survey.run_book whole)
  have agree : Agree (.start limits) (.start survey) := ⟨rfl, rfl⟩
  obtain ⟨agree, calls⟩ := agree.run sound.globals start whole second
  have nested := Reader.nested_of_readings first second
  -- At the end no function is being read, and as many were read as recorded.
  obtain ⟨phase, blocks⟩ := Reader.outside_of_readings first second finished
  have all : r.functions.map Func.call = survey.heads.map Head.call := by
    have current : r.current = none := by
      rw [Reader.current_eq (by simp [phase]), blocks]
      rfl
    have whole : r.functions.map Func.call ++ r.heads.map Head.call
        = survey.heads.map Head.call := by
      have begun : (Reader.start survey).calls = survey.heads.map Head.call := by
        simp [Reader.calls, Reader.start, Reader.current, Reader.definedBy]
      rw [begun, Reader.calls, current] at calls
      simpa using calls
    have lengths := congrArg List.length whole
    simp only [List.length_append, List.length_map] at lengths
    have rest : r.heads = [] := List.eq_nil_of_length_eq_zero (by have := agree.count; omega)
    simpa [rest] using whole
  have main := nested.chain_statement phase
  rw [blocks] at main
  obtain ⟨-, main⟩ := main.blocks_nil
  refine ⟨?_, ?_, rfl, rfl, ?_⟩
  · rw [all]
    exact nested.functions
  · rw [all]
    exact main.widen (Nat.le_refl _) nested.room
  · have named : r.functions.map (·.label) = (r.functions.map Func.call).map (·.label) := by
      simp [Func.call]
    rw [named, all, ← agree.count, ← sound.labels]
    simp [Head.call]

end PinnedStack
