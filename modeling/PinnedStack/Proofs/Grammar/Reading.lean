import PinnedStack.Proofs.Grammar.Meaning
import PinnedStack.Proofs.Tree.Nesting

/-!
# Statements are read

* `Reader.after`, `Reader.within` — the reading once nodes were added, and in a block inside.
* `Reader.bindName_eq_ok`, `Reader.step_atom_eq_ok` — when a name binds, and when a word is read.
* `Reader.keyword_whenTrue` and the like — what comes of the keywords that end a block.
* `Reader.Inside` — tokens that are read while a block stays open.
* `Reader.adds_of_builds` — the tokens of statements are such tokens, and add their nodes.
-/

namespace PinnedStack

open Token (Key Word Atom)

namespace Reader

variable {g : Globals} {r next out : Reader} {s : Supply} {t : Token}

/-! ## Steps -/

/-- The reading once nodes were added, with what was handed out for them. -/
def after (r : Reader) (supply : Supply) (nodes : List Node) : Reader :=
  ({ r with supply := supply } : Reader).add nodes

@[simp] theorem after_supply (r : Reader) (supply : Supply) (nodes : List Node) :
    (r.after supply nodes).supply = supply := by simp [after]

@[simp] theorem after_phase (r : Reader) (supply : Supply) (nodes : List Node) :
    (r.after supply nodes).phase = r.phase := by simp [after]

@[simp] theorem after_length (r : Reader) (supply : Supply) (nodes : List Node) :
    (r.after supply nodes).blocks.length = r.blocks.length := by
  unfold after add
  cases h : r.blocks <;> simp

@[simp] theorem after_after (r : Reader) (s s' : Supply) (xs ys : List Node) :
    (r.after s xs).after s' ys = r.after s' (xs ++ ys) := by
  unfold after add
  cases h : r.blocks <;> simp

@[simp] theorem after_nil (r : Reader) : r.after r.supply [] = r := by
  unfold after add
  cases h : r.blocks with
  | nil => simp [← h]
  | cons b outer => simp [← h]

/-- In a block the nodes go to that block. -/
theorem after_cons {b : OpenBlock} {outer : List OpenBlock} (blocks : r.blocks = b :: outer)
    (supply : Supply) (nodes : List Node) :
    r.after supply nodes
      = { r with supply := supply, blocks := ⟨b.frame, b.nodes ++ nodes⟩ :: outer } := by
  simp [after, add, blocks]

/-- The reading in a block inside, with the nodes read there. -/
def within (r : Reader) (supply : Supply) (frame : Frame) (nodes : List Node) : Reader :=
  { r with supply := supply, blocks := ⟨frame, nodes⟩ :: r.blocks, phase := .statement }

@[simp] theorem after_within (r : Reader) (s s' : Supply) (frame : Frame) (xs ys : List Node) :
    (r.within s frame xs).after s' ys = r.within s' frame (xs ++ ys) := rfl

/-- In a block inside, the phase of the reading around it and what was handed out there are lost. -/
theorem after_within_eq (r : Reader) (s s' s'' : Supply) (phase : Phase) (xs ys : List Node)
    (frame : Frame) :
    (({ r with supply := s, phase := phase } : Reader).after s' xs).within s'' frame ys
      = (r.after s' xs).within s'' frame ys := by
  cases h : r.blocks <;> simp [after, add, within, h]

theorem step_mark (phase : r.phase = .statement) {k : Keyword} (m : Key k) :
    step g r m.1 = r.keyword k m.1.place := by
  unfold step
  rw [phase]
  simp only [statement, m.2]

theorem step_branch (phase : r.phase = .statement) (m : Key .branch) :
    step g r m.1
      = .ok (r.within r.supply.label.2 (.whenTrue r.supply.nextLabel m.1.place) []) := by
  rw [step_mark phase]
  simp only [keyword, openBranch, push, within, Supply.label, phase]

theorem step_loop (phase : r.phase = .statement) (m : Key .loop) :
    step g r m.1 = .ok { r with phase := .iterator m.1.place } := step_mark phase m

theorem step_bind (phase : r.phase = .statement) (m : Key .bind) :
    step g r m.1 = .ok { r with phase := .names [] m.1.place } := step_mark phase m

theorem step_atom_eq_ok (phase : r.phase = .statement) (t : Atom) :
    step g r t.1 = .ok next
      ↔ ∃ node supply, Leaf g r.supply t.1 node supply ∧ next = r.after supply [node] := by
  unfold step
  rw [phase]
  constructor
  · intro ok
    simp only [statement] at ok
    split at ok
    · rename_i kind
      cases ok
      exact ⟨_, _, .number kind, rfl⟩
    · rename_i kind
      cases ok
      exact ⟨_, _, .string kind, rfl⟩
    · rename_i kind
      cases ok
      exact ⟨_, _, .cstring kind, rfl⟩
    · rename_i kind
      split at ok
      · rename_i node resolved
        cases ok
        exact ⟨node, _, .word kind resolved, rfl⟩
      · cases ok
    · rename_i k kind
      exact absurd kind (t.2 k)
  · rintro ⟨node, supply, leaf, rfl⟩
    cases leaf with
    | number kind | string kind | cstring kind =>
      simp only [statement, kind]
      rfl
    | word kind resolved =>
      simp only [statement, kind, resolved]
      rfl

/-- A name is bound just if there is room for it. -/
theorem pin_eq_ok {name : String} {ty : Ty} {place : Place} {p : Pin} {supply : Supply} :
    s.pin name ty place = .ok (p, supply)
      ↔ p = ⟨name, ty, s.nextSlot⟩ ∧ s.nextSlot + ty.width ≤ s.book.capacity
        ∧ supply = s.enter p := by
  unfold Supply.pin PinBook.pin
  by_cases room : s.book.nextSlot + ty.width > s.book.capacity
  · have full : ¬ s.nextSlot + ty.width ≤ s.book.capacity := Nat.not_le_of_gt room
    simp [room, full]
  · have free : s.nextSlot + ty.width ≤ s.book.capacity := Nat.le_of_not_gt room
    simp only [room, if_false, free, true_and]
    constructor
    · intro eq
      cases eq
      exact ⟨rfl, rfl⟩
    · rintro ⟨rfl, rfl⟩
      rfl

/-- A word binds a name just if the name is valid, has a type and finds room. -/
theorem bindName_eq_ok {byDefault : Ty} {p : Pin} {supply : Supply} :
    bindName g s t byDefault = .ok (p, supply) ↔ Binds g s t byDefault p supply := by
  have bound : ∀ {name ty}, binding g t byDefault = .ok (name, ty)
      ↔ Names g t byDefault name ty ∧ checkPinName name t.place = .ok () := by
    intro name ty
    unfold binding
    constructor
    · intro ok
      simp only at ok
      split at ok
      · rename_i plain
        split at ok <;> cases ok
        exact ⟨.bare plain, ‹_›⟩
      · rename_i split
        split at ok
        · rename_i resolved
          split at ok <;> cases ok
          exact ⟨.typed split resolved, ‹_›⟩
        · cases ok
    · rintro ⟨named, valid⟩
      cases named with
      | bare plain => simp only [plain, valid]
      | typed split resolved => simp only [split, resolved, valid]
  unfold bindName
  constructor
  · intro ok
    split at ok
    · rename_i here
      obtain ⟨named, valid⟩ := bound.1 here
      obtain ⟨rfl, room, rfl⟩ := pin_eq_ok.1 ok
      exact ⟨named, valid, rfl, room, rfl⟩
    · cases ok
  · intro binds
    rw [bound.2 ⟨binds.named, binds.valid⟩]
    refine pin_eq_ok.2 ⟨?_, binds.room, binds.next⟩
    rw [← binds.slot]

/-- A token behind `loop` is read just if it binds a name. -/
theorem step_iterator_eq_ok {opener : Place} :
    step g { r with phase := .iterator opener } t = .ok next
      ↔ t.kind = .word ∧ ∃ p supply, Binds g r.supply t .number p supply
        ∧ next = r.within supply.label.2 (.loopCondition p supply.nextLabel opener) [] := by
  unfold step openLoop
  by_cases word : t.kind = .word
  · simp only [word, if_true, true_and]
    constructor
    · intro ok
      split at ok
      · cases ok
      · rename_i p supply bound
        cases ok
        exact ⟨p, supply, bindName_eq_ok.1 bound, rfl⟩
    · rintro ⟨p, supply, bound, rfl⟩
      rw [bindName_eq_ok.2 bound]
      rfl
  · simp [word]

theorem step_within {opener : Place} {pins : List Pin} (m : Key .within) (any : pins ≠ []) :
    step g { r with supply := s, phase := .names pins opener } m.1
      = .ok ((r.after s (pinNodes pins opener)).within s (.bindBody pins opener) []) := by
  have bound : pins.isEmpty = false := by simpa using any
  unfold step
  simp only [bindToken, m.2, openBind, bound]
  cases h : r.blocks <;> simp [after, add, within, push, h]

/-- Pins are taken out of scope in any case with the blocks that they belong to. -/
theorem unpinAll_eq_leave {pins scope : List Pin} (live : s.book.live = pins.reverse ++ scope) :
    unpinAll s pins = s.leave scope := by
  unfold unpinAll
  generalize pins.reverse = ps at *
  induction ps generalizing s with
  | nil =>
    obtain rfl : s.book.live = scope := live
    rfl
  | cons p ps ih =>
    have one : (s.unpin p.name).2.book.live = ps ++ scope := by simp [Supply.unpin, PinBook.unpin, live]
    exact ih one

theorem unpin_eq_leave {p : Pin} {scope : List Pin} (live : s.book.live = p :: scope) :
    (s.unpin p.name).2 = s.leave scope := by
  simp [Supply.unpin, PinBook.unpin, Supply.leave, live]

/-! ## Keywords that end a block -/

section Ends

variable {n : Nat} {opener place : Place} {nodes : List Node}

theorem keyword_otherwise : (r.within s (.whenTrue n opener) nodes).keyword .otherwise place
    = .ok (r.within s (.whenFalse nodes n opener) []) := rfl

theorem keyword_body {p : Pin} : (r.within s (.loopCondition p n opener) nodes).keyword .body place
    = .ok (r.within s (.loopBody p nodes n opener) []) := rfl

theorem keyword_whenTrue (phase : r.phase = .statement) :
    (r.within s (.whenTrue n opener) nodes).keyword .semicolon place
      = .ok (r.after s [.ifTrue nodes n opener]) := by
  obtain ⟨_, _, _, _, _, _⟩ := r
  cases phase
  rfl

theorem keyword_whenFalse (phase : r.phase = .statement) {yes : List Node} :
    (r.within s (.whenFalse yes n opener) nodes).keyword .semicolon place
      = .ok (r.after s [branchNode yes nodes n opener]) := by
  obtain ⟨_, _, _, _, _, _⟩ := r
  cases phase
  rfl

@[simp] theorem branchNode_nil : branchNode [] nodes n opener = .ifFalse nodes n opener := rfl

@[simp] theorem branchNode_cons {first : Node} {others : List Node} :
    branchNode (first :: others) nodes n opener = .ifElse (first :: others) nodes n opener := rfl

theorem keyword_loopBody (phase : r.phase = .statement) {p : Pin} {condition : List Node}
    {scope : List Pin} (live : s.book.live = p :: scope) :
    (r.within s (.loopBody p condition n opener) nodes).keyword .semicolon place
      = .ok (r.after (s.leave scope) [.loop p condition nodes n opener]) := by
  rw [← unpin_eq_leave live]
  obtain ⟨_, _, _, _, _, _⟩ := r
  cases phase
  rfl

theorem keyword_bindBody (phase : r.phase = .statement) {pins scope : List Pin}
    (live : s.book.live = pins.reverse ++ scope) :
    (r.within s (.bindBody pins opener) nodes).keyword .semicolon place
      = .ok (r.after (s.leave scope) (nodes ++ unpinNodes pins opener)) := by
  rw [← unpinAll_eq_leave live]
  obtain ⟨_, _, _, _, _, _⟩ := r
  cases phase
  rfl

end Ends

/-! ## Statements are read -/

/-- Tokens that are read without an end of the blocks up to a depth: as long as no more blocks are
open, each of the tokens starts a statement or belongs to one. -/
inductive Inside (g : Globals) (depth : Nat) : Reader → List Token → Reader → Prop where
  | nil (r : Reader) : Inside g depth r [] r
  | cons {r next last : Reader} {t : Token} {ts : List Token}
      (stay : r.phase = .statement → r.blocks.length ≤ depth → t.begins = true)
      (step : step g r t = .ok next) (rest : Inside g depth next ts last) :
      Inside g depth r (t :: ts) last

variable {depth : Nat} {xs ys : List Token}

theorem Inside.append {middle : Reader} (left : Inside g depth r xs middle)
    (right : Inside g depth middle ys out) : Inside g depth r (xs ++ ys) out := by
  induction left with
  | nil => exact right
  | cons stay step _ ih => exact .cons stay step (ih right)

theorem Inside.run_eq (h : Inside g depth r xs next) (ys : List Token) :
    run g r (xs ++ ys) = run g next ys := by
  induction h with
  | nil => rfl
  | cons _ step _ ih => simp only [List.cons_append, run, step, ih]

theorem step_word (opener : Place) {pins : List Pin} (phase : r.phase = .names pins opener)
    (w : Word) {p : Pin} {supply : Supply} (bound : Binds g r.supply w.1 .runtime p supply) :
    step g r w.1 = .ok { r with supply := supply, phase := .names (pins ++ [p]) opener } := by
  unfold step
  rw [phase]
  simp only [bindToken, w.2, bindName_eq_ok.2 bound]

theorem inside_names {pins more : List Pin} {opener : Place} {names : List Word} {last : Supply}
    (phase : r.phase = .names pins opener)
    (bound : BindsAll g .runtime r.supply names.unattach more last) :
    Inside g depth r names.unattach
      { r with supply := last, phase := .names (pins ++ more) opener } := by
  induction names generalizing r pins more with
  | nil =>
    cases bound
    obtain ⟨supply, heads, functions, main, blocks, _⟩ := r
    obtain rfl := phase
    simpa using Inside.nil _
  | cons w names ih =>
    cases bound with
    | cons first others =>
      rename_i middle p pins'
      have rest := ih (r := { r with supply := middle, phase := .names (pins ++ [p]) opener }) rfl
        others
      refine .cons (by simp [phase]) (step_word opener phase w first) ?_
      simpa using rest

/-- What is read up to a keyword that is more than `depth` blocks deep. -/
theorem Inside.mark {frame : Frame} {nodes : List Node}
    (h : Inside g depth next xs (r.within s frame nodes)) (deep : depth ≤ r.blocks.length)
    {k : Keyword} (m : Key k)
    (ends : (r.within s frame nodes).keyword k m.1.place = .ok out) :
    Inside g depth next (xs ++ [m.1]) out := by
  refine h.append (.cons (fun _ low => ?_) ((step_mark rfl m).trans ends) (.nil _))
  simp only [within, List.length_cons] at low
  omega

/-- Statements that are read inside a block, at this depth or below, and add nodes. -/
def Adds (g : Globals) (depth : Nat) (s : Supply) (ss : List Statement) (nodes : List Node)
    (last : Supply) : Prop :=
  ∀ r : Reader, r.phase = .statement → r.supply = s → depth ≤ r.blocks.length →
    Inside g depth r (spellAll ss) (r.after last nodes)

/-- Statements in a block inside, with the keyword that ends it. -/
theorem Adds.inside_mark {ss : List Statement} {nodes : List Node} {last : Supply}
    (h : Adds g depth s ss nodes last) (deep : depth ≤ r.blocks.length) {frame : Frame}
    {k : Keyword} (m : Key k) (ends : (r.within last frame nodes).keyword k m.1.place = .ok out) :
    Inside g depth (r.within s frame []) (spellAll ss ++ [m.1]) out := by
  have inner := h (r.within s frame []) rfl rfl (by simp only [within, List.length_cons]; omega)
  rw [after_within] at inner
  exact inner.mark deep m ends

section Blocks

variable {middle between : Supply} {inner left right : List Node} {yes no : List Statement}

theorem inside_ifThen (phase : r.phase = .statement) (deep : depth ≤ r.blocks.length)
    (opener : Key .branch) (stop : Key .semicolon)
    (arm : Adds g depth r.supply.label.2 yes inner middle) :
    Inside g depth r (Statement.ifThen opener yes stop).spell
      (r.after middle [.ifTrue inner r.supply.nextLabel opener.1.place]) :=
  .cons (fun _ _ => opener.begins_eq) (step_branch phase opener)
    (arm.inside_mark deep stop (keyword_whenTrue phase))

theorem inside_ifElse (phase : r.phase = .statement) (deep : depth ≤ r.blocks.length)
    (opener : Key .branch) (split : Key .otherwise) (stop : Key .semicolon)
    (first : Adds g depth r.supply.label.2 yes left between)
    (second : Adds g depth between no right middle) :
    Inside g depth r (Statement.ifElse opener yes split no stop).spell
      (r.after middle [branchNode left right r.supply.nextLabel opener.1.place]) := by
  refine .cons (fun _ _ => opener.begins_eq) (step_branch phase opener) ?_
  rw [List.append_cons]
  exact (first.inside_mark deep split keyword_otherwise).append
    (second.inside_mark deep stop (keyword_whenFalse phase))

theorem inside_loop (phase : r.phase = .statement) (deep : depth ≤ r.blocks.length)
    (opener : Key .loop) (iterator : Word) (split : Key .body) (stop : Key .semicolon) {p : Pin}
    {entered : Supply} (bound : Binds g r.supply iterator.1 .number p entered)
    (first : Adds g depth entered.label.2 yes left between)
    (second : Adds g depth between no right middle)
    (live : middle.book.live = p :: r.supply.book.live) :
    Inside g depth r (Statement.loop opener iterator yes split no stop).spell
      (r.after (middle.leave r.supply.book.live)
        [.loop p left right entered.nextLabel opener.1.place]) := by
  refine .cons (fun _ _ => opener.begins_eq) (step_loop phase opener)
    (.cons (by simp) (step_iterator_eq_ok.2 ⟨iterator.2, p, entered, bound, rfl⟩) ?_)
  rw [List.append_cons]
  exact (first.inside_mark deep split keyword_body).append
    (second.inside_mark deep stop (keyword_loopBody phase live))

theorem inside_bind (phase : r.phase = .statement) (deep : depth ≤ r.blocks.length)
    (opener : Key .bind) {names : List Word} (any : names ≠ []) (split : Key .within)
    (stop : Key .semicolon) {pins : List Pin} {entered : Supply}
    (bound : BindsAll g .runtime r.supply names.unattach pins entered)
    (body : Adds g depth entered yes inner middle)
    (live : middle.book.live = pins.reverse ++ r.supply.book.live) :
    Inside g depth r (Statement.bind opener names any split yes stop).spell
      (r.after (middle.leave r.supply.book.live)
        (pinNodes pins opener.1.place ++ inner ++ unpinNodes pins opener.1.place)) := by
  have some : pins ≠ [] := by
    intro none
    have count := bound.length_eq
    simp only [none, List.length_nil, List.length_unattach] at count
    exact any (List.eq_nil_of_length_eq_zero count.symm)
  have closes : ((r.after entered (pinNodes pins opener.1.place)).within middle
      (.bindBody pins opener.1.place) inner).keyword .semicolon stop.1.place = .ok _ :=
    keyword_bindBody (by simpa) live
  have bodied := body.inside_mark (r := r.after entered (pinNodes pins opener.1.place)) (by simpa)
    stop closes
  rw [after_after, ← List.append_assoc] at bodied
  refine .cons (fun _ _ => opener.begins_eq) (step_bind phase opener) ?_
  have named : Inside g depth _ _ _ :=
    inside_names (r := { r with phase := .names [] opener.1.place }) rfl bound
  rw [List.nil_append] at named
  exact named.append (.cons (by simp) (step_within (r := r) split some) bodied)

end Blocks

/-- The tokens of statements are read inside their block and add the nodes of the statements. -/
theorem adds_of_builds {ss : List Statement} {nodes : List Node} {last : Supply}
    (h : Builds g s ss nodes last) : Adds g depth s ss nodes last := by
  induction h with
  | nil =>
    intro r phase supply deep
    subst supply
    rw [after_nil]
    exact .nil r
  | atom here after ih =>
    rename_i middle last token rest node nodes
    intro r phase supply deep
    subst supply
    have step := (step_atom_eq_ok phase token).2 ⟨node, middle, here, rfl⟩
    refine .cons (fun _ _ => token.begins) step ?_
    simpa using ih (r.after middle [node]) (by simp [phase]) (by simp) (by simpa)
  | ifThen inner after ihInner ihAfter =>
    rename_i opener _ _ stop _ _
    intro r phase supply deep
    subst supply
    have first := inside_ifThen phase deep opener stop ihInner
    simpa [spellAll] using first.append (ihAfter _ (by simp [phase]) (by simp) (by simpa))
  | ifNo left right after ihLeft ihRight ihAfter =>
    rename_i opener _ _ _ split stop _ _
    intro r phase supply deep
    subst supply
    have first := inside_ifElse phase deep opener split stop ihLeft ihRight
    simpa [spellAll] using first.append (ihAfter _ (by simp [phase]) (by simp) (by simpa))
  | ifBoth left right after ihLeft ihRight ihAfter =>
    rename_i opener _ _ _ split stop _ _ _ _
    intro r phase supply deep
    subst supply
    have first := inside_ifElse phase deep opener split stop ihLeft ihRight
    simpa [spellAll] using first.append (ihAfter _ (by simp [phase]) (by simp) (by simpa))
  | loop bound left right after ihLeft ihRight ihAfter =>
    rename_i opener iterator _ _ _ split stop _ _ _ _
    intro r phase supply deep
    subst supply
    have live := right.live_eq.trans (left.live_eq.trans bound.live_eq)
    have first := inside_loop phase deep opener iterator split stop bound ihLeft ihRight live
    simpa [spellAll] using first.append (ihAfter _ (by simp [phase]) (by simp) (by simpa))
  | bind bound within after ihWithin ihAfter =>
    rename_i opener _ any split _ _ stop _ _ _
    intro r phase supply deep
    subst supply
    have live := within.live_eq.trans bound.live_eq
    have first := inside_bind phase deep opener any split stop bound ihWithin live
    simpa [spellAll] using first.append (ihAfter _ (by simp [phase]) (by simp) (by simpa))

theorem run_of_builds {ss : List Statement} {nodes : List Node} {last : Supply}
    (h : Builds g r.supply ss nodes last) (phase : r.phase = .statement) (rest : List Token) :
    run g r (spellAll ss ++ rest) = run g (r.after last nodes) rest :=
  (adds_of_builds h r phase rfl (Nat.zero_le _)).run_eq rest

end Reader

end PinnedStack
