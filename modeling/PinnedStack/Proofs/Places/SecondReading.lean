import PinnedStack.Proofs.Places.FirstReading
import PinnedStack.Reader

/-!
# The second reading does not depend on places

* `Node.unplaced`, `Frame.unplaced`, `Reader.unplaced` and so on — what is left of trees and of open
  blocks without places.
* `Reader.mirrors_resolve` — the meaning of a word.
* `Reader.mirrors_step`, `Reader.mirrors_run` — one token, and any number of them.
* `Program.mirrors_ofTokens` — the program that a text spells.
-/

namespace PinnedStack

/-! ## Without places -/

mutual

def Node.unplaced : Node → Node
  | .op op _ => .op op .builtin
  | .call call _ => .call call .builtin
  | .ifTrue body n _ => .ifTrue (unplacedAll body) n .builtin
  | .ifFalse body n _ => .ifFalse (unplacedAll body) n .builtin
  | .ifElse yes no n _ => .ifElse (unplacedAll yes) (unplacedAll no) n .builtin
  | .loop iterator condition body n _ =>
      .loop iterator (unplacedAll condition) (unplacedAll body) n .builtin

def unplacedAll : List Node → List Node
  | [] => []
  | n :: ns => n.unplaced :: unplacedAll ns

end

@[simp] theorem unplacedAll_nil : unplacedAll [] = [] := by rw [unplacedAll]

@[simp] theorem unplacedAll_cons (n : Node) (ns : List Node) :
    unplacedAll (n :: ns) = n.unplaced :: unplacedAll ns := by rw [unplacedAll]

@[simp] theorem unplacedAll_append (a b : List Node) :
    unplacedAll (a ++ b) = unplacedAll a ++ unplacedAll b := by
  induction a with
  | nil => simp
  | cons n a ih => simp [ih]

@[simp] theorem isEmpty_unplacedAll (ns : List Node) : (unplacedAll ns).isEmpty = ns.isEmpty := by
  cases ns with
  | nil => simp
  | cons => simp

def Func.unplaced (f : Func) : Func := { f with body := unplacedAll f.body, place := .builtin }

def Program.unplaced (p : Program) : Program := ⟨p.functions.map Func.unplaced, p.main.unplaced⟩

def Frame.unplaced : Frame → Frame
  | function head _ firstSlot pins => function head.unplaced .builtin firstSlot pins
  | whenTrue n _ => whenTrue n .builtin
  | whenFalse yes n _ => whenFalse (unplacedAll yes) n .builtin
  | loopCondition iterator n _ => loopCondition iterator n .builtin
  | loopBody iterator condition n _ => loopBody iterator (unplacedAll condition) n .builtin
  | bindBody pins _ => bindBody pins .builtin

def OpenBlock.unplaced (b : OpenBlock) : OpenBlock := ⟨b.frame.unplaced, unplacedAll b.nodes⟩

def Reader.Phase.unplaced : Reader.Phase → Reader.Phase
  | statement => statement
  | head h _ => head h.unplaced .builtin
  | plain => plain
  | iterator _ => iterator .builtin
  | names pins _ => names pins .builtin

def Reader.unplaced (r : Reader) : Reader :=
  ⟨r.supply, r.heads.map Head.unplaced, r.functions.map Func.unplaced, unplacedAll r.main,
    r.blocks.map OpenBlock.unplaced, r.phase.unplaced⟩

/-! ## Names -/

theorem Supply.mirrors_pin {s : Supply} {name : String} {ty : Ty} (p q : Place) :
    Mirrors id (s.pin name ty p) (s.pin name ty q) := by
  unfold pin
  split
  · exact .error rfl
  · exact .ok _

namespace Reader

variable {g : Globals} {s : Supply} {word : String} {p q : Place}

theorem mirrors_recordOp (p q : Place) : Mirrors id (recordOp g word p) (recordOp g.unplaced word q) := by
  have records : g.unplaced.record? = g.record? := funext g.record?_unplaced
  unfold recordOp
  rw [records]
  split
  · exact .ok _
  · split
    · exact .ok _
    · split
      · exact .ok _
      · split
        · exact .ok _
        · split
          · exact .ok _
          · exact .error rfl

theorem mirrors_globalNode :
    Mirrors Node.unplaced (globalNode g word p) (globalNode g.unplaced word .builtin) := by
  unfold globalNode
  rw [Globals.find?_unplaced]
  cases g.find? word with
  | none => exact .error rfl
  | some meaning =>
    cases meaning with
    | function | constant | memory => exact .ok _
    | record => exact .error rfl

/-- **What a word means does not depend on places.** -/
theorem mirrors_resolve :
    Mirrors Node.unplaced (resolve g s word p) (resolve g.unplaced s word .builtin) := by
  unfold resolve
  split
  · exact .ok _
  · split
    · exact .ok _
    · split
      · exact .ok _
      · refine (mirrors_recordOp p .builtin).elim (fun op? => ?_) fun _ _ => .error
        cases op? with
        | some op => exact .ok _
        | none => exact mirrors_globalNode

theorem mirrors_binding (t : Token) (byDefault : Ty) :
    Mirrors id (binding g t byDefault) (binding g.unplaced t.unplaced byDefault) := by
  unfold binding
  simp only [Token.unplaced_lexeme]
  split
  · exact (mirrors_checkPinName t.lexeme t.place t.unplaced.place).elim (fun _ => .ok _)
      fun _ _ => .error
  · rename_i name _ _
    refine (Globals.mirrors_tyOf _).elim (fun ty => ?_) fun _ _ => .error
    exact (mirrors_checkPinName name t.place t.unplaced.place).elim (fun _ => .ok _)
      fun _ _ => .error

theorem mirrors_bindName (t : Token) (byDefault : Ty) :
    Mirrors id (bindName g s t byDefault) (bindName g.unplaced s t.unplaced byDefault) := by
  unfold bindName
  exact (mirrors_binding t byDefault).elim (fun _ => Supply.mirrors_pin _ _) fun _ _ => .error

theorem mirrors_bindParams (p q : Place) (params : List (String × Ty)) :
    Mirrors id (bindParams s p params) (bindParams s q params) := by
  induction params generalizing s with
  | nil => exact .ok _
  | cons param params ih =>
    rw [bindParams, bindParams]
    refine (Supply.mirrors_pin p q).elim (fun bound => ?_) fun _ _ => .error
    simp only [id]
    exact ih.elim (fun _ => .ok _) fun _ _ => .error

/-! ## Blocks -/

variable {r : Reader}

@[simp] theorem unplacedAll_pinNodes (pins : List Pin) (place : Place) :
    unplacedAll (pinNodes pins place) = pinNodes pins .builtin := by
  unfold pinNodes
  induction pins.reverse with
  | nil => simp
  | cons p pins ih => simp [ih, Node.unplaced]

@[simp] theorem unplacedAll_unpinNodes (pins : List Pin) (place : Place) :
    unplacedAll (unpinNodes pins place) = unpinNodes pins .builtin := by
  unfold unpinNodes
  induction pins with
  | nil => simp
  | cons p pins ih => simp [ih, Node.unplaced]

theorem add_unplaced (r : Reader) (nodes : List Node) :
    (r.add nodes).unplaced = r.unplaced.add (unplacedAll nodes) := by
  cases blocks : r.blocks with
  | nil => simp [add, unplaced, blocks]
  | cons b outer => simp [add, unplaced, blocks, OpenBlock.unplaced]

theorem mirrors_openFunction (head : Head) (opener : Place) :
    Mirrors unplaced (r.openFunction head opener)
      (r.unplaced.openFunction head.unplaced .builtin) := by
  unfold openFunction
  refine (mirrors_bindParams head.place .builtin _).elim (fun bound => ?_) fun _ _ => .error
  obtain ⟨pins, supply⟩ := bound
  exact .of_eq (by
    simp [unplaced, OpenBlock.unplaced, Frame.unplaced, Head.unplaced, Phase.unplaced])

theorem mirrors_openBind (pins : List Pin) (opener : Place) :
    Mirrors unplaced (r.openBind pins opener) (r.unplaced.openBind pins .builtin) := by
  unfold openBind
  split
  · exact .error rfl
  · have pinned := add_unplaced r (pinNodes pins opener)
    rw [unplacedAll_pinNodes] at pinned
    rw [← pinned]
    exact .ok _

theorem mirrors_openLoop (t : Token) (opener : Place) :
    Mirrors unplaced (openLoop g r t opener)
      (openLoop g.unplaced r.unplaced t.unplaced .builtin) := by
  unfold openLoop
  exact (mirrors_bindName t .number).elim (fun _ => .ok _) fun _ _ => .error

theorem branchNode_unplaced (yes no : List Node) (n : Nat) (place : Place) :
    (branchNode yes no n place).unplaced
      = branchNode (unplacedAll yes) (unplacedAll no) n .builtin := by
  unfold branchNode
  rw [isEmpty_unplacedAll]
  split
  · rfl
  · rfl

theorem close_unplaced (r : Reader) (b : OpenBlock) (outer : List OpenBlock) :
    r.unplaced.close b.unplaced (outer.map OpenBlock.unplaced)
      = (r.close b outer).map unplaced := by
  obtain ⟨frame, nodes⟩ := b
  cases frame with
  | whenTrue n place =>
    show some (add _ _) = some (unplaced (add _ _))
    rw [add_unplaced]
    rfl
  | whenFalse yes n place =>
    show some (add _ _) = some (unplaced (add _ _))
    rw [add_unplaced, unplacedAll_cons, branchNode_unplaced]
    rfl
  | loopCondition => rfl
  | loopBody iterator condition n place =>
    show some (add _ _) = some (unplaced (add _ _))
    rw [add_unplaced]
    rfl
  | bindBody pins place =>
    show some (add _ _) = some (unplaced (add _ _))
    rw [add_unplaced, unplacedAll_append, unplacedAll_unpinNodes]
    rfl
  | function head opener firstSlot pins =>
    simp [close, OpenBlock.unplaced, Frame.unplaced, unplaced, Func.unplaced, Head.unplaced]

/-! ## One token -/

theorem mirrors_keyword (k : Keyword) (place : Place) :
    Mirrors unplaced (r.keyword k place) (r.unplaced.keyword k .builtin) := by
  have blocks : r.unplaced.blocks = r.blocks.map OpenBlock.unplaced := rfl
  have heads : r.unplaced.heads = r.heads.map Head.unplaced := rfl
  unfold keyword
  rw [blocks, heads]
  cases k with
  | branch | loop | bind => exact .ok _
  | semicolon =>
    cases r.blocks with
    | nil => exact .ok _
    | cons b outer =>
      simp only [List.map_cons, close_unplaced]
      cases r.close b outer with
      | some next => exact .ok next
      | none => exact .error rfl
  | otherwise =>
    cases r.blocks with
    | nil => exact .error rfl
    | cons b outer =>
      obtain ⟨frame, nodes⟩ := b
      cases frame with
      | whenTrue n opener =>
        exact .of_eq (by simp [unplaced, OpenBlock.unplaced, Frame.unplaced])
      | _ => exact .error rfl
  | body =>
    cases r.blocks with
    | nil => exact .error rfl
    | cons b outer =>
      obtain ⟨frame, nodes⟩ := b
      cases frame with
      | loopCondition iterator n opener =>
        exact .of_eq (by simp [unplaced, OpenBlock.unplaced, Frame.unplaced])
      | _ => exact .error rfl
  | colon =>
    cases r.blocks with
    | nil =>
      cases r.heads with
      | nil => exact .error rfl
      | cons => exact .ok _
    | cons => exact .error rfl
  | record | constant | memory =>
    cases r.blocks with
    | nil => exact .ok _
    | cons => exact .error rfl
  | _ => exact .error rfl

theorem mirrors_statement (t : Token) :
    Mirrors unplaced (statement g r t) (statement g.unplaced r.unplaced t.unplaced) := by
  unfold statement
  rw [Token.unplaced_kind, Token.unplaced_lexeme]
  cases t.kind with
  | int value =>
    have added := add_unplaced r [.op (.number value) t.place]
    exact .of_eq added
  | str text =>
    exact .of_eq (add_unplaced _ _)
  | cstr text =>
    exact .of_eq (add_unplaced _ _)
  | word =>
    exact mirrors_resolve.elim (fun _ => .of_eq (add_unplaced _ _)) fun _ _ => .error
  | keyword k => exact mirrors_keyword k t.place

theorem mirrors_bindToken (t : Token) (pins : List Pin) (opener : Place) :
    Mirrors unplaced (bindToken g r t pins opener)
      (bindToken g.unplaced r.unplaced t.unplaced pins .builtin) := by
  unfold bindToken
  rw [Token.unplaced_kind]
  split
  · exact mirrors_openBind pins opener
  · exact (mirrors_bindName t .runtime).elim (fun _ => .ok _) fun _ _ => .error
  · exact .error rfl

/-- **One token of the second reading does not depend on places.** -/
theorem mirrors_step (r : Reader) (t : Token) :
    Mirrors unplaced (step g r t) (step g.unplaced r.unplaced t.unplaced) := by
  have phase : r.unplaced.phase = r.phase.unplaced := rfl
  unfold step
  rw [phase]
  cases r.phase with
  | statement => exact mirrors_statement t
  | head head opener =>
    exact .choice .rfl (fun _ => mirrors_openFunction head opener) fun _ => .ok _
  | plain =>
    refine .of_eq ?_
    rw [Token.unplaced_kind]
    split
    · rfl
    · rfl
  | iterator opener => exact .choice .rfl (fun _ => mirrors_openLoop t opener) fun _ => .error rfl
  | names pins opener => exact mirrors_bindToken t pins opener

theorem mirrors_run (r : Reader) (ts : List Token) :
    Mirrors unplaced (run g r ts) (run g.unplaced r.unplaced (ts.map Token.unplaced)) := by
  induction ts generalizing r with
  | nil => exact .ok _
  | cons t ts ih =>
    rw [List.map_cons, run, run]
    exact (mirrors_step r t).elim ih fun _ _ => .error

theorem mirrors_finish (r : Reader) (stop : Place) :
    Mirrors unplaced (r.finish stop) (r.unplaced.finish .builtin) := by
  have phase : r.unplaced.phase = r.phase.unplaced := rfl
  have blocks : r.unplaced.blocks = r.blocks.map OpenBlock.unplaced := rfl
  unfold finish
  rw [phase, blocks]
  cases r.phase with
  | statement =>
    cases r.blocks with
    | nil => exact .ok _
    | cons => exact .error rfl
  | plain => exact .ok _
  | head | iterator | names => exact .error rfl

end Reader

/-- **The program that a text spells does not depend on places.** -/
theorem Program.mirrors_ofTokens (limits : Limits) (text : Scanned) :
    Mirrors (Prod.map unplaced id) (ofTokens limits text) (ofTokens limits text.unplaced) := by
  have readable (s : Survey) : Reader.start s.unplaced = (Reader.start s).unplaced := rfl
  have tokens : text.unplaced.tokens = text.tokens.map Token.unplaced := rfl
  have stop : text.unplaced.stop = .builtin := rfl
  have start : text.unplaced.start = .builtin := by
    cases here : text.tokens with
    | nil => simp [Scanned.start, Scanned.unplaced, here]
    | cons => simp [Scanned.start, Scanned.unplaced, here, Token.unplaced]
  unfold ofTokens
  rw [tokens, stop, start]
  refine (Survey.mirrors_ofTokens limits text).elim (fun survey => ?_) fun _ _ => .error
  simp only [readable]
  refine (Reader.mirrors_run (.start survey) text.tokens).elim (fun r => ?_) fun _ _ => .error
  simp only
  exact (Reader.mirrors_finish r text.stop).elim (fun _ => .ok _) fun _ _ => .error

end PinnedStack
