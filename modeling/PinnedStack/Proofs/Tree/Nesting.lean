import PinnedStack.Proofs.Tree.SecondReading

/-!
# Bodies are well-scoped

* `Chain` — the open blocks nest: each can be completed to a well-scoped part of the one around it.
* `Reader.Nested` — the invariant of the second reading; `Reader.nested_moves` keeps it.
* `Func.Formed` — what the invariant says of a function; `Reader.nested_of_readings` is what holds
  once the text is read.
-/

namespace PinnedStack

/-- A function whose body is well-scoped and takes its slots from those the function saves. -/
structure Func.Formed (callees : List Call) (capacity : Nat) (f : Func) : Prop where
  contract : f.contract.Sound
  body : Scoped callees [] f.firstSlot f.endSlot f.body
  room : f.endSlot ≤ capacity

/-- Where nodes go that are added: the innermost open block, or else the main code. -/
def extend (main : List Node) : List OpenBlock → List Node → List Node × List OpenBlock
  | [], nodes => (main ++ nodes, [])
  | b :: outer, nodes => (main, { b with nodes := b.nodes ++ nodes } :: outer)

theorem extend_extend (main : List Node) (blocks : List OpenBlock) (xs ys : List Node) :
    extend (extend main blocks xs).1 (extend main blocks xs).2 ys
      = extend main blocks (xs ++ ys) := by
  cases blocks with
  | nil => simp [extend]
  | cons b outer => simp [extend]

/-- Open blocks around a point where the pins of a scope are live and slots are handed out from the
given one on. The operations that bind the pins of a `bind` stand in the block around it already. -/
inductive Chain (callees : List Call) : List Node → List OpenBlock → List Pin → Nat → Prop where
  | top {main : List Node} {slot : Nat} (inner : Scoped callees [] 0 slot main) :
      Chain callees main [] [] slot
  | function {main nodes : List Node} {head : Head} {opener : Place} {pins : List Pin}
      {first middle slot : Nat} (outer : Chain callees main [] [] first)
      (contract : head.signature.contract.Sound) (sound : ∀ p ∈ pins, p.ty.Sound)
      (laid : Pin.Laid first pins middle) (inner : Scoped callees pins.reverse middle slot nodes) :
      Chain callees main
        [⟨.function head opener first pins, Reader.pinNodes pins head.place ++ nodes⟩]
        pins.reverse slot
  | whenTrue {main nodes : List Node} {blocks : List OpenBlock} {scope : List Pin} {label : Nat}
      {place : Place} {first slot : Nat} (outer : Chain callees main blocks scope first)
      (inner : Scoped callees scope first slot nodes) :
      Chain callees main (⟨.whenTrue label place, nodes⟩ :: blocks) scope slot
  | whenFalse {main yes nodes : List Node} {blocks : List OpenBlock} {scope : List Pin}
      {label : Nat} {place : Place} {first middle slot : Nat}
      (outer : Chain callees main blocks scope first)
      (arm : Scoped callees scope first middle yes)
      (inner : Scoped callees scope middle slot nodes) :
      Chain callees main (⟨.whenFalse yes label place, nodes⟩ :: blocks) scope slot
  | loopCondition {main nodes : List Node} {blocks : List OpenBlock} {scope : List Pin} {p : Pin}
      {label : Nat} {place : Place} {slot : Nat} (outer : Chain callees main blocks scope p.slot)
      (sound : p.ty.Sound)
      (inner : Scoped callees (p :: scope) (p.slot + p.ty.width) slot nodes) :
      Chain callees main (⟨.loopCondition p label place, nodes⟩ :: blocks) (p :: scope) slot
  | loopBody {main condition nodes : List Node} {blocks : List OpenBlock} {scope : List Pin}
      {p : Pin} {label : Nat} {place : Place} {middle slot : Nat}
      (outer : Chain callees main blocks scope p.slot) (sound : p.ty.Sound)
      (test : Scoped callees (p :: scope) (p.slot + p.ty.width) middle condition)
      (inner : Scoped callees (p :: scope) middle slot nodes) :
      Chain callees main (⟨.loopBody p condition label place, nodes⟩ :: blocks) (p :: scope) slot
  | bindBody {main nodes : List Node} {blocks : List OpenBlock} {scope : List Pin}
      {pins : List Pin} {place : Place} {first middle slot : Nat}
      (outer : Chain callees main blocks scope first) (fits : ∀ p ∈ pins, p.Fits)
      (laid : Pin.Laid first pins middle)
      (inner : Scoped callees (pins.reverse ++ scope) middle slot nodes) :
      Chain callees (extend main blocks (Reader.pinNodes pins place)).1
        (⟨.bindBody pins place, nodes⟩ :: (extend main blocks (Reader.pinNodes pins place)).2)
        (pins.reverse ++ scope) slot

namespace Chain

variable {callees : List Call} {main nodes : List Node} {blocks : List OpenBlock}
  {scope : List Pin} {first slot : Nat}

theorem add (h : Chain callees main blocks scope first)
    (more : Scoped callees scope first slot nodes) :
    Chain callees (extend main blocks nodes).1 (extend main blocks nodes).2 scope slot := by
  cases h with
  | top inner => exact .top (inner.append more)
  | function outer contract sound laid inner =>
    simpa [extend] using Chain.function outer contract sound laid (inner.append more)
  | whenTrue outer inner => exact .whenTrue outer (inner.append more)
  | whenFalse outer arm inner => exact .whenFalse outer arm (inner.append more)
  | loopCondition outer sound inner => exact .loopCondition outer sound (inner.append more)
  | loopBody outer sound test inner => exact .loopBody outer sound test (inner.append more)
  | bindBody outer fits laid inner => exact .bindBody outer fits laid (inner.append more)

theorem skip (h : Chain callees main blocks scope first) (le : first ≤ slot) :
    Chain callees main blocks scope slot := by
  have more := h.add (.nil le)
  cases blocks <;> simpa [extend] using more

theorem blocks_nil (h : Chain callees main [] scope slot) :
    scope = [] ∧ Scoped callees [] 0 slot main := by
  cases h with
  | top inner => exact ⟨rfl, inner⟩

end Chain

namespace Reader

/-- Names that were brought into scope and stand before the body that they are for. -/
def Naming (callees : List Call) (r : Reader) (scope : List Pin) : Reader.Phase → Prop
  | .names pins _ => ∃ first, Chain callees r.main r.blocks scope first ∧ (∀ p ∈ pins, p.Fits)
      ∧ r.supply.book.live = pins.reverse ++ scope ∧ Pin.Laid first pins r.supply.nextSlot
  | .head head _ => Chain callees r.main r.blocks scope r.supply.nextSlot
      ∧ r.supply.book.live = scope ∧ r.blocks = [] ∧ head.Sound
  | .plain => Chain callees r.main r.blocks scope r.supply.nextSlot
      ∧ r.supply.book.live = scope ∧ r.blocks = []
  | _ => Chain callees r.main r.blocks scope r.supply.nextSlot ∧ r.supply.book.live = scope

/-- What holds of the second reading at every token. -/
structure Nested (callees : List Call) (capacity : Nat) (r : Reader) : Prop where
  chain : ∃ scope, Naming callees r scope r.phase
  functions : ∀ f ∈ r.functions, f.Formed callees capacity
  heads : ∀ h ∈ r.heads, h.Sound
  size : r.supply.book.capacity = capacity
  room : r.supply.nextSlot ≤ capacity

variable {callees : List Call} {capacity : Nat} {r next : Reader}

/-- A phase in which no name waits for its body. -/
theorem Nested.of_chain (h : r.Nested callees capacity) (scope : List Pin)
    (statement : next.phase = .statement ∨ ∃ place, next.phase = .iterator place)
    (chain : Chain callees next.main next.blocks scope next.supply.nextSlot)
    (live : next.supply.book.live = scope) (functions : next.functions = r.functions)
    (heads : next.heads = r.heads) (size : next.supply.book.capacity = r.supply.book.capacity)
    (room : next.supply.nextSlot ≤ capacity) : next.Nested callees capacity := by
  refine ⟨⟨scope, ?_⟩, functions ▸ h.functions, heads ▸ h.heads, size.trans h.size, room⟩
  rcases statement with phase | ⟨place, phase⟩ <;> rw [phase] <;> exact ⟨chain, live⟩

theorem Nested.chain_statement (h : r.Nested callees capacity) (phase : r.phase = .statement) :
    Chain callees r.main r.blocks r.supply.book.live r.supply.nextSlot := by
  obtain ⟨scope, naming⟩ := h.chain
  rw [phase] at naming
  obtain ⟨chain, rfl⟩ := naming
  exact chain

theorem add_main (r : Reader) (nodes : List Node) :
    (r.add nodes).main = (extend r.main r.blocks nodes).1 := by
  unfold add extend
  cases r.blocks <;> rfl

theorem add_blocks (r : Reader) (nodes : List Node) :
    (r.add nodes).blocks = (extend r.main r.blocks nodes).2 := by
  unfold add extend
  cases r.blocks <;> rfl

@[simp] theorem add_supply (r : Reader) (nodes : List Node) : (r.add nodes).supply = r.supply := by
  unfold add
  cases r.blocks <;> rfl

@[simp] theorem add_functions (r : Reader) (nodes : List Node) :
    (r.add nodes).functions = r.functions := by
  unfold add
  cases r.blocks <;> rfl

@[simp] theorem add_heads (r : Reader) (nodes : List Node) : (r.add nodes).heads = r.heads := by
  unfold add
  cases r.blocks <;> rfl

@[simp] theorem add_phase (r : Reader) (nodes : List Node) : (r.add nodes).phase = r.phase := by
  unfold add
  cases r.blocks <;> rfl

/-- Pins that are the innermost ones are taken out of scope and nothing else changes. -/
theorem unpinAll_live {s : Supply} {pins scope : List Pin}
    (live : s.book.live = pins.reverse ++ scope) :
    (unpinAll s pins).book.live = scope ∧ (unpinAll s pins).nextSlot = s.nextSlot
      ∧ (unpinAll s pins).book.capacity = s.book.capacity
      ∧ (unpinAll s pins).nextLabel = s.nextLabel := by
  unfold unpinAll
  generalize pins.reverse = ps at *
  induction ps generalizing s with
  | nil => exact ⟨live, rfl, rfl, rfl⟩
  | cons p ps ih =>
    have one : (s.unpin p.name).2.book.live = ps ++ scope := by simp [Supply.unpin, PinBook.unpin, live]
    obtain ⟨rest, slot, size, label⟩ := ih one
    exact ⟨rest, slot, size, label⟩

/-- Closing a block leaves the blocks around it nested. -/
theorem nested_close (h : r.Nested callees capacity) (phase : r.phase = .statement)
    {b : OpenBlock} {outer : List OpenBlock} (blocks : r.blocks = b :: outer)
    (closed : r.close b outer = some next) : next.Nested callees capacity := by
  have chain := h.chain_statement phase
  obtain ⟨frame, nodes⟩ := b
  rw [blocks] at chain
  generalize live : r.supply.book.live = scope at chain
  generalize hmain : r.main = main at chain
  -- What is left when a finished node goes to the block around it.
  have add : ∀ {supply : Supply} {scope' : List Pin} {first : Nat} {done : List Node},
      supply.book.live = scope' → supply.nextSlot = r.supply.nextSlot →
      supply.book.capacity = r.supply.book.capacity → Chain callees r.main outer scope' first →
      Scoped callees scope' first r.supply.nextSlot done →
      Nested callees capacity (({ r with supply := supply, blocks := outer } : Reader).add done) := by
    intro supply scope' first done live slot size around inner
    refine h.of_chain scope' (.inl (by simpa using phase)) ?_ (by simpa using live)
      (by simp) (by simp) (by simpa using size) (by simpa [slot] using h.room)
    rw [add_main, add_blocks, add_supply, slot]
    exact around.add inner
  cases chain with
  | function around contract sound laid inner =>
    rename_i nodes head opener pins first middle
    cases closed
    obtain ⟨rest, slot, size, -⟩ := unpinAll_live (live.trans (List.append_nil _).symm)
    have le := Nat.le_trans laid.le inner.le
    refine ⟨⟨[], ?_⟩, ?_, h.heads, size.trans h.size, slot ▸ h.room⟩
    · have shown := around.skip le
      simp only [phase, Naming]
      rw [slot, hmain]
      exact ⟨shown, rest⟩
    · intro f mem
      rcases List.mem_append.1 mem with mem | mem
      · exact h.functions f mem
      · obtain rfl := List.mem_singleton.1 mem
        refine ⟨contract, ?_, h.room⟩
        exact .bind (fun p mem => .inr (sound p mem)) laid (by simpa using inner)
  | whenTrue around inner =>
    cases closed
    exact add live rfl rfl (hmain ▸ around) (.ifTrue inner)
  | whenFalse around arm inner =>
    cases closed
    refine add live rfl rfl (hmain ▸ around) ?_
    unfold branchNode
    split
    · exact (Scoped.ifFalse inner).widen arm.le (Nat.le_refl _)
    · exact .ifElse arm inner
  | loopCondition around sound inner => cases closed
  | loopBody around sound test inner =>
    rename_i scope p label place middle
    cases closed
    have left : (r.supply.unpin p.name).2.book.live = scope := by simp [Supply.unpin, PinBook.unpin, live]
    exact add left rfl rfl (hmain ▸ around) (.loop sound test inner)
  | bindBody around fits laid inner =>
    rename_i main blocks scope pins place first middle
    cases closed
    obtain ⟨rest, slot, size, -⟩ := unpinAll_live live
    have body : Scoped callees scope first r.supply.nextSlot
        (pinNodes pins place ++ nodes ++ unpinNodes pins place) := .bind fits laid inner
    refine h.of_chain scope (.inl (by simpa using phase)) ?_ (by simpa using rest)
      (by simp) (by simp) (by simpa using size) (by simpa [slot] using h.room)
    rw [add_main, add_blocks, add_supply]
    simp only [hmain, slot]
    rw [extend_extend, ← List.append_assoc]
    exact around.add body

theorem nested_moves {g : Globals} {t : Token} (hg : g.Sound callees)
    (h : r.Nested callees capacity) (moves : Moves g r t next) : next.Nested callees capacity := by
  cases moves with
  | leaf phase plain book nextLabel fits =>
    have chain := h.chain_statement phase
    refine h.of_chain r.supply.book.live (.inl (by simpa using phase)) ?_ ?_ (by simp)
      (by simp) ?_ ?_
    · rw [add_main, add_blocks, add_supply]
      simp only [Supply.nextSlot, book]
      exact chain.add (.leaf (fits callees hg))
    · simp [book]
    · simp [book]
    · simpa [Supply.nextSlot, book] using h.room
  | branch phase kind =>
    have chain := h.chain_statement phase
    exact h.of_chain _ (.inl phase) (.whenTrue chain (.nil (Nat.le_refl _))) rfl rfl rfl rfl h.room
  | loop phase kind =>
    exact h.of_chain _ (.inr ⟨_, rfl⟩) (h.chain_statement phase) rfl rfl rfl rfl h.room
  | bind phase kind =>
    exact ⟨⟨_, _, h.chain_statement phase, by simp, by simp, rfl⟩, h.functions, h.heads, h.size,
      h.room⟩
  | stray phase kind blocks => exact h
  | close phase kind blocks closed => exact nested_close h phase blocks closed
  | otherwise phase kind blocks =>
    have chain := h.chain_statement phase
    rw [blocks] at chain
    refine h.of_chain r.supply.book.live (.inl phase) ?_ rfl rfl rfl rfl h.room
    generalize r.main = main at *
    cases chain with
    | whenTrue around inner => exact .whenFalse around inner (.nil (Nat.le_refl _))
  | body phase kind blocks =>
    have chain := h.chain_statement phase
    rw [blocks] at chain
    refine h.of_chain r.supply.book.live (.inl phase) ?_ rfl rfl rfl rfl h.room
    generalize r.supply.book.live = scope at *
    generalize r.main = main at *
    cases chain with
    | loopCondition around sound inner => exact .loopBody around sound inner (.nil (Nat.le_refl _))
  | function phase kind blocks heads =>
    rename_i head rest
    have sound := h.heads
    rw [heads] at sound
    refine ⟨⟨_, h.chain_statement phase, rfl, blocks, sound head (List.mem_cons_self ..)⟩,
      h.functions, ?_, h.size, h.room⟩
    intro other mem
    exact sound other (List.mem_cons_of_mem _ mem)
  | definition phase kind form blocks =>
    exact ⟨⟨_, h.chain_statement phase, rfl, blocks⟩, h.functions, h.heads, h.size, h.room⟩
  | inHead phase kind => exact h
  | headDone phase kind opened =>
    rename_i head opener
    obtain ⟨scope, naming⟩ := h.chain
    rw [phase] at naming
    obtain ⟨chain, live, blocks, sound⟩ := naming
    obtain ⟨pins, supply, bound, rfl⟩ := openFunction_eq_ok.1 opened
    obtain ⟨fits, live', laid, size, room, -⟩ := bindParams_brings bound sound.2
    rw [blocks] at chain
    obtain ⟨rfl, inner⟩ := chain.blocks_nil
    refine h.of_chain pins.reverse (.inl rfl) ?_ (by simp [live', live]) rfl rfl size ?_
    · simpa [blocks] using Chain.function (.top inner) sound.1 fits laid (.nil (Nat.le_refl _))
    · have enough := room (h.size.symm ▸ h.room)
      exact h.size ▸ enough
  | inPlain phase kind => exact h
  | plainDone phase kind =>
    obtain ⟨scope, naming⟩ := h.chain
    rw [phase] at naming
    exact h.of_chain _ (.inl rfl) naming.1 naming.2.1 rfl rfl rfl h.room
  | iterator phase kind bound =>
    rename_i opener p supply
    obtain ⟨scope, naming⟩ := h.chain
    rw [phase] at naming
    obtain ⟨chain, rfl⟩ := naming
    obtain ⟨typed, brings⟩ := bindName_brings hg bound
    have sound : p.ty.Sound := by
      rcases typed with eq | sound
      · exact eq ▸ .inl rfl
      · exact sound
    refine h.of_chain (p :: r.supply.book.live) (.inl rfl) ?_ brings.live rfl rfl
      brings.capacity (h.size ▸ brings.room)
    refine .loopCondition (brings.slot ▸ chain) sound (.nil ?_)
    exact Nat.le_of_eq (brings.slot ▸ brings.nextSlot.symm)
  | name phase kind bound =>
    rename_i pins opener p supply
    obtain ⟨scope, naming⟩ := h.chain
    rw [phase] at naming
    obtain ⟨first, chain, fits, live, laid⟩ := naming
    obtain ⟨typed, brings⟩ := bindName_brings hg bound
    refine ⟨⟨scope, first, chain, ?_, ?_, ?_⟩, h.functions, h.heads, brings.capacity.trans h.size,
      h.size ▸ brings.room⟩
    · intro q mem
      rcases List.mem_append.1 mem with mem | mem
      · exact fits q mem
      · exact List.mem_singleton.1 mem ▸ typed
    · simp [brings.live, live]
    · exact laid.append ⟨brings.slot, brings.nextSlot.symm⟩
  | within phase kind =>
    rename_i pins opener
    obtain ⟨scope, naming⟩ := h.chain
    rw [phase] at naming
    obtain ⟨first, chain, fits, live, laid⟩ := naming
    refine h.of_chain (pins.reverse ++ scope) (.inl rfl) ?_ ?_ ?_ ?_ ?_ ?_
    · simpa [push, add_main, add_blocks] using
        @Chain.bindBody callees _ _ _ _ _ opener _ _ _ chain fits laid (.nil (Nat.le_refl _))
    all_goals simp [push, live, h.room]

theorem nested_start {survey : Survey} (callees : List Call)
    (heads : ∀ h ∈ survey.heads, h.Sound) (live : survey.supply.book = .empty capacity) :
    (Reader.start survey).Nested callees capacity := by
  refine ⟨⟨[], ?_⟩, by simp [start], heads, by simp [start, live, PinBook.empty], ?_⟩
  · refine ⟨.top (.nil (Nat.zero_le _)), ?_⟩
    simp [start, live, PinBook.empty]
  · simp [start, Supply.nextSlot, live, PinBook.empty]

end Reader

theorem Survey.step_book {s next : Survey} {t : Token} (ok : s.step t = .ok next) :
    next.supply.book = s.supply.book := by
  cases step_moves ok with
  | plain phase kind defined =>
    obtain ⟨supply, meaning, globals, yields, -, rfl⟩ := definePlain_eq_ok.1 defined
    cases yields <;> rfl
  | function phase kind defined =>
    obtain ⟨globals, -, rfl⟩ := defineFunction_eq_ok.1 defined
    rfl
  | onward => rfl

theorem Survey.run_book {s next : Survey} {ts : List Token} (ok : s.run ts = .ok next) :
    next.supply.book = s.supply.book := by
  induction ts generalizing s with
  | nil =>
    cases ok
    rfl
  | cons t ts ih =>
    simp only [run] at ok
    split at ok
    · rename_i one here
      exact (ih ok).trans (step_book here)
    · cases ok

/-- **The second reading of a text keeps its blocks nested to the end.** -/
theorem Reader.nested_of_readings {limits : Limits} {text : Scanned} {survey : Survey} {r : Reader}
    (first : Survey.ofTokens limits text = .ok survey)
    (second : Reader.run survey.globals (.start survey) text.tokens = .ok r) :
    r.Nested (survey.heads.map Head.call) limits.pinCapacity := by
  have sound := Survey.ofTokens_sound first
  have start := Reader.nested_start (survey.heads.map Head.call) sound.heads
    (Survey.run_book (Survey.ofTokens_eq_ok first).1)
  exact Reader.run_induct (fun h moves => Reader.nested_moves sound.globals h moves) start second

end PinnedStack
