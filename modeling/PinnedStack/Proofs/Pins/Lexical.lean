import PinnedStack.Proofs.Emission.Origins
import PinnedStack.Proofs.Grammar.Scopes

/-!
# Pins have lexical scope

* `Denotes` — the node of a word or of a literal where some pins are in scope, innermost first.
* `Lexical` — the nodes of statements where some pins are in scope. The pins of a block are added for
  the statements of that block and for no others; nothing else is handed on.
* `LexicalAll` — the functions and the main code of items. Each body starts with the inputs of its
  function in scope.
* `Builds.lexical`, `Elaborates.lexical` — the pins in scope that are kept while a text is read are
  these.
* `bindersOf`, `usesOf` — the pins that the nodes of a body bring into scope, and those that they
  refer to. `Lexical.mem_of_mem_usesOf` — a body refers to no others.
-/

namespace PinnedStack

open Token (Key Word Atom)

/-- The innermost pin of a name. -/
def innermost? (scope : List Pin) (name : String) : Option Pin := scope.find? (·.name == name)

/-- Does a word refer to none of the pins in scope? -/
def Free (scope : List Pin) (word : String) : Prop :=
  innermost? scope word = none ∧ (withoutLast? '!' word).bind (innermost? scope) = none

/-- The node of a word or of a literal where some pins are in scope: a name pushes its innermost
pin, and a name with a `!`, unless that is a name too, replaces it. -/
inductive Denotes (scope : List Pin) (t : Token) : Node → Prop where
  | pinned {p : Pin} (word : t.kind = .word) (found : innermost? scope t.lexeme = some p) :
      Denotes scope t (.op (.pinned p) t.place)
  | update {name : String} {p : Pin} (word : t.kind = .word)
      (unnamed : innermost? scope t.lexeme = none) (marked : withoutLast? '!' t.lexeme = some name)
      (found : innermost? scope name = some p) : Denotes scope t (.op (.update p) t.place)
  | op {op : Op} (free : t.kind = .word → Free scope t.lexeme) (other : op.pin? = none) :
      Denotes scope t (.op op t.place)
  | call {c : Call} (free : Free scope t.lexeme) : Denotes scope t (.call c t.place)

/-- The nodes that statements stand for where some pins are in scope. The last name of a `bind` is
its innermost. -/
inductive Lexical (g : Globals) : List Pin → List Statement → List Node → Prop where
  | nil {scope : List Pin} : Lexical g scope [] []
  | atom {scope : List Pin} {token : Atom} {rest : List Statement} {node : Node} {nodes : List Node}
      (here : Denotes scope token.1 node) (after : Lexical g scope rest nodes) :
      Lexical g scope (.atom token :: rest) (node :: nodes)
  | ifThen {scope : List Pin} {opener : Key .branch} {yes rest : List Statement}
      {stop : Key .semicolon} {arm nodes : List Node} {label : Nat}
      (inner : Lexical g scope yes arm) (after : Lexical g scope rest nodes) :
      Lexical g scope (.ifThen opener yes stop :: rest) (.ifTrue arm label opener.1.place :: nodes)
  | ifElse {scope : List Pin} {opener : Key .branch} {yes no rest : List Statement}
      {split : Key .otherwise} {stop : Key .semicolon} {first second nodes : List Node}
      {label : Nat}
      (left : Lexical g scope yes first) (right : Lexical g scope no second)
      (after : Lexical g scope rest nodes) :
      Lexical g scope (.ifElse opener yes split no stop :: rest)
        (Reader.branchNode first second label opener.1.place :: nodes)
  | loop {scope : List Pin} {opener : Key .loop} {iterator : Word}
      {condition body rest : List Statement} {split : Key .body} {stop : Key .semicolon} {p : Pin}
      {test round nodes : List Node} {label : Nat}
      (named : Names g iterator.1 .number p.name p.ty)
      (left : Lexical g (p :: scope) condition test) (right : Lexical g (p :: scope) body round)
      (after : Lexical g scope rest nodes) :
      Lexical g scope (.loop opener iterator condition split body stop :: rest)
        (.loop p test round label opener.1.place :: nodes)
  | bind {scope : List Pin} {opener : Key .bind} {names : List Word} {any : names ≠ []}
      {split : Key .within} {body rest : List Statement} {stop : Key .semicolon} {pins : List Pin}
      {inner nodes : List Node}
      (named : List.Forall₂ (fun t p => Names g t .runtime p.name p.ty) names.unattach pins)
      (within : Lexical g (pins.reverse ++ scope) body inner) (after : Lexical g scope rest nodes) :
      Lexical g scope (.bind opener names any split body stop :: rest)
        (Reader.pinNodes pins opener.1.place ++ inner ++ Reader.unpinNodes pins opener.1.place
          ++ nodes)

/-- The functions and the main code that items stand for. Outside all functions no pin is in scope,
and in the body of one its inputs are. -/
inductive LexicalAll (g : Globals) : List Head → List Item → List Func → List Node → Prop where
  | nil : LexicalAll g [] [] [] []
  | statement {heads : List Head} {st : Statement} {items : List Item} {fs : List Func}
      {nodes main : List Node} (built : Lexical g [] [st] nodes)
      (after : LexicalAll g heads items fs main) :
      LexicalAll g heads (.statement st :: items) fs (nodes ++ main)
  | stray {heads : List Head} {token : Key .semicolon} {items : List Item} {fs : List Func}
      {main : List Node} (after : LexicalAll g heads items fs main) :
      LexicalAll g heads (.stray token :: items) fs main
  | plain {heads : List Head} {form : Plain} {opener : Key form.keyword} {text : List Token}
      {inside : ∀ t ∈ text, t.kind ≠ .keyword .semicolon} {stop : Key .semicolon}
      {items : List Item} {fs : List Func} {main : List Node}
      (after : LexicalAll g heads items fs main) :
      LexicalAll g heads (.plain form opener text inside stop :: items) fs main
  | function {head : Head} {heads : List Head} {opener : Key .colon} {heading : List Token}
      {inside : ∀ t ∈ heading, t.kind ≠ .keyword .closeParen} {paren : Key .closeParen}
      {body : List Statement} {stop : Key .semicolon} {items : List Item} {pins : List Pin}
      {nodes main : List Node} {first last : Nat} {fs : List Func}
      (named : pins.map (fun p => (p.name, p.ty)) = head.signature.params.getD [])
      (built : Lexical g pins.reverse body nodes) (after : LexicalAll g heads items fs main) :
      LexicalAll g (head :: heads) (.function opener heading inside paren body stop :: items)
        (head.func pins nodes first last :: fs) main

/-! ## What is read -/

section Read

variable {g : Globals} {s next : Supply}

theorem Op.Fits.pin?_eq_none {op : Op} (fits : op.Fits []) : op.pin? = none := by
  cases op with
  | pinned p => cases fits
  | update p => cases fits
  | pin p => cases fits
  | unpin p => cases fits
  | _ => rfl

/-- The operation on a record that a word names works on no pin. -/
theorem Reader.pin?_recordOp {word : String} {place : Place} {op : Op}
    (ok : recordOp g word place = .ok (some op)) : op.pin? = none := by
  obtain ⟨_, -, rfl⟩ | ⟨_, -, rfl⟩ | ⟨_, _, _, _, -, -, -, rfl⟩ := recordOp_cases ok
  all_goals rfl

theorem Reader.resolve_denotes {t : Token} {node : Node} (word : t.kind = .word)
    (ok : resolve g s t.lexeme t.place = .ok node) : Denotes s.book.live t node := by
  cases resolve_eq_ok.1 ok with
  | pinned found => exact .pinned word found
  | update unnamed found =>
    obtain ⟨name, marked, found⟩ := Option.bind_eq_some_iff.1 found
    exact .update word unnamed marked found
  | builtin unnamed unmarked named =>
    exact .op (fun _ => ⟨unnamed, unmarked⟩) (Op.fits_of_builtin? named []).pin?_eq_none
  | record unnamed unmarked _ named =>
    exact .op (fun _ => ⟨unnamed, unmarked⟩) (pin?_recordOp named)
  | global unnamed unmarked _ _ named =>
    have free : Free s.book.live t.lexeme := ⟨unnamed, unmarked⟩
    obtain ⟨_, -, rfl⟩ | ⟨_, -, rfl⟩ | ⟨_, _, -, rfl⟩ := globalNode_cases named
    · exact .call free
    · exact .op (fun _ => free) rfl
    · exact .op (fun _ => free) rfl

theorem Leaf.denotes {t : Token} {node : Node} (h : Leaf g s t node next) :
    Denotes s.book.live t node := by
  cases h with
  | number kind => exact .op (fun word => by simp [kind] at word) rfl
  | string kind => exact .op (fun word => by simp [kind] at word) rfl
  | cstring kind => exact .op (fun word => by simp [kind] at word) rfl
  | word kind resolved => exact Reader.resolve_denotes kind resolved

/-- **The pins that are kept while statements are read are those of the blocks around them.** -/
theorem Builds.lexical {ss : List Statement} {nodes : List Node} (h : Builds g s ss nodes next) :
    Lexical g s.book.live ss nodes := by
  induction h with
  | nil => exact .nil
  | atom here _ ih =>
    rw [here.book_eq] at ih
    exact .atom here.denotes ih
  | ifThen inner _ ihInner ihAfter =>
    rw [inner.live_eq] at ihAfter
    exact .ifThen ihInner ihAfter
  | ifNo left right _ ihLeft ihRight ihAfter =>
    rw [right.live_eq, left.live_eq] at ihAfter
    rw [left.live_eq] at ihRight
    exact .ifElse ihLeft ihRight ihAfter
  | ifBoth left right _ ihLeft ihRight ihAfter =>
    rw [right.live_eq, left.live_eq] at ihAfter
    rw [left.live_eq] at ihRight
    exact .ifElse ihLeft ihRight ihAfter
  | loop bound left _ _ ihLeft ihRight ihAfter =>
    rw [left.live_eq] at ihRight
    have entered := bound.live_eq
    exact .loop bound.named (entered ▸ ihLeft) (entered ▸ ihRight) ihAfter
  | bind bound _ _ ihWithin ihAfter => exact .bind bound.named (bound.live_eq ▸ ihWithin) ihAfter

/-- **The pins that are kept while items are read are those of the blocks around them.** -/
theorem Elaborates.lexical {heads : List Head} {items : List Item} {fs : List Func}
    {main : List Node} (h : Elaborates g s heads items fs main next) (outside : s.book.live = []) :
    LexicalAll g heads items fs main := by
  induction h with
  | nil => exact .nil
  | statement built _ ih =>
    exact .statement (outside ▸ built.lexical) (ih (built.live_eq.trans outside))
  | stray _ ih => exact .stray (ih outside)
  | plain _ ih => exact .plain (ih outside)
  | function bound built _ ih =>
    have entered := bound.live_eq
    rw [outside, List.append_nil] at entered
    exact .function bound.named (entered ▸ built.lexical) (ih outside)

end Read

/-! ## Binders and uses -/

/-- The pins that the nodes of a body bring into scope. -/
def bindersOf (nodes : List Node) : List Pin := (nodesIn nodes).filterMap Node.binder?

/-- The pins that the nodes of a body refer to. -/
def usesOf (nodes : List Node) : List Pin := (nodesIn nodes).filterMap Node.use?

@[simp] theorem bindersOf_nil : bindersOf [] = [] := rfl

@[simp] theorem usesOf_nil : usesOf [] = [] := rfl

@[simp] theorem bindersOf_append (xs ys : List Node) :
    bindersOf (xs ++ ys) = bindersOf xs ++ bindersOf ys := by simp [bindersOf]

@[simp] theorem usesOf_append (xs ys : List Node) : usesOf (xs ++ ys) = usesOf xs ++ usesOf ys := by
  simp [usesOf]

@[simp] theorem bindersOf_pinNodes (pins : List Pin) (place : Place) :
    bindersOf (Reader.pinNodes pins place) = pins.reverse := by
  rw [bindersOf, nodesIn_pinNodes, Reader.pinNodes, List.filterMap_map]
  exact List.filterMap_some

@[simp] theorem usesOf_pinNodes (pins : List Pin) (place : Place) :
    usesOf (Reader.pinNodes pins place) = [] := by
  rw [usesOf, nodesIn_pinNodes, Reader.pinNodes, List.filterMap_map]
  exact List.filterMap_eq_nil_iff.2 fun _ _ => rfl

@[simp] theorem bindersOf_unpinNodes (pins : List Pin) (place : Place) :
    bindersOf (Reader.unpinNodes pins place) = [] := by
  rw [bindersOf, nodesIn_unpinNodes, Reader.unpinNodes, List.filterMap_map]
  exact List.filterMap_eq_nil_iff.2 fun _ _ => rfl

@[simp] theorem usesOf_unpinNodes (pins : List Pin) (place : Place) :
    usesOf (Reader.unpinNodes pins place) = [] := by
  rw [usesOf, nodesIn_unpinNodes, Reader.unpinNodes, List.filterMap_map]
  exact List.filterMap_eq_nil_iff.2 fun _ _ => rfl

section Nodes

variable (label : Nat) (place : Place) (nodes : List Node)

@[simp] theorem bindersOf_ifTrue (body : List Node) :
    bindersOf (.ifTrue body label place :: nodes) = bindersOf body ++ bindersOf nodes := by
  simp [bindersOf, nodesIn, Node.within, Node.binder?, List.filterMap_cons]

@[simp] theorem usesOf_ifTrue (body : List Node) :
    usesOf (.ifTrue body label place :: nodes) = usesOf body ++ usesOf nodes := by
  simp [usesOf, nodesIn, Node.within, Node.use?, List.filterMap_cons]

@[simp] theorem bindersOf_ifFalse (body : List Node) :
    bindersOf (.ifFalse body label place :: nodes) = bindersOf body ++ bindersOf nodes := by
  simp [bindersOf, nodesIn, Node.within, Node.binder?, List.filterMap_cons]

@[simp] theorem usesOf_ifFalse (body : List Node) :
    usesOf (.ifFalse body label place :: nodes) = usesOf body ++ usesOf nodes := by
  simp [usesOf, nodesIn, Node.within, Node.use?, List.filterMap_cons]

@[simp] theorem bindersOf_ifElse (yes no : List Node) :
    bindersOf (.ifElse yes no label place :: nodes)
      = bindersOf yes ++ bindersOf no ++ bindersOf nodes := by
  simp [bindersOf, nodesIn, Node.within, Node.binder?, List.filterMap_cons]

@[simp] theorem usesOf_ifElse (yes no : List Node) :
    usesOf (.ifElse yes no label place :: nodes) = usesOf yes ++ usesOf no ++ usesOf nodes := by
  simp [usesOf, nodesIn, Node.within, Node.use?, List.filterMap_cons]

@[simp] theorem bindersOf_branchNode (yes no : List Node) :
    bindersOf (Reader.branchNode yes no label place :: nodes)
      = bindersOf yes ++ bindersOf no ++ bindersOf nodes := by
  cases yes with
  | nil => exact bindersOf_ifFalse label place nodes no
  | cons n yes => exact bindersOf_ifElse label place nodes (n :: yes) no

@[simp] theorem usesOf_branchNode (yes no : List Node) :
    usesOf (Reader.branchNode yes no label place :: nodes)
      = usesOf yes ++ usesOf no ++ usesOf nodes := by
  cases yes with
  | nil => exact usesOf_ifFalse label place nodes no
  | cons n yes => exact usesOf_ifElse label place nodes (n :: yes) no

@[simp] theorem bindersOf_loop (p : Pin) (condition body : List Node) :
    bindersOf (.loop p condition body label place :: nodes)
      = p :: (bindersOf condition ++ bindersOf body ++ bindersOf nodes) := by
  simp [bindersOf, nodesIn, Node.within, Node.binder?]

@[simp] theorem usesOf_loop (p : Pin) (condition body : List Node) :
    usesOf (.loop p condition body label place :: nodes)
      = usesOf condition ++ usesOf body ++ usesOf nodes := by
  simp [usesOf, nodesIn, Node.within, Node.use?, List.filterMap_cons]

variable {scope : List Pin} {t : Token} {node : Node}

theorem Denotes.within_eq (h : Denotes scope t node) : node.within = [node] := by cases h <;> rfl

theorem Denotes.binder?_eq_none (h : Denotes scope t node) : node.binder? = none := by
  cases h with
  | pinned => rfl
  | update => rfl
  | op _ other =>
    rename_i op _
    cases op <;> first | rfl | cases other
  | call => rfl

theorem Denotes.bindersOf_cons (h : Denotes scope t node) :
    bindersOf (node :: nodes) = bindersOf nodes := by
  simp [bindersOf, nodesIn, h.within_eq, h.binder?_eq_none]

theorem Denotes.mem_of_mem_usesOf (h : Denotes scope t node) {p : Pin}
    (used : p ∈ usesOf (node :: nodes)) : p ∈ scope ∨ p ∈ usesOf nodes := by
  simp only [usesOf, nodesIn, h.within_eq, List.singleton_append, List.filterMap_cons] at used
  cases h with
  | pinned _ found =>
    rcases List.mem_cons.1 used with rfl | used
    · exact .inl (List.mem_of_find?_eq_some found)
    · exact .inr used
  | update _ _ _ found =>
    rcases List.mem_cons.1 used with rfl | used
    · exact .inl (List.mem_of_find?_eq_some found)
    · exact .inr used
  | op _ other =>
    rename_i op _
    cases op <;> first | exact .inr used | cases other
  | call => exact .inr used

end Nodes

/-- **Statements refer to the pins in scope and to those they bind, and to no others.** -/
theorem Lexical.mem_of_mem_usesOf {g : Globals} {scope : List Pin} {ss : List Statement}
    {nodes : List Node} (h : Lexical g scope ss nodes) :
    ∀ p ∈ usesOf nodes, p ∈ scope ∨ p ∈ bindersOf nodes := by
  induction h with
  | nil => simp
  | atom here _ ih =>
    intro p used
    rw [here.bindersOf_cons]
    exact (here.mem_of_mem_usesOf _ used).elim .inl (ih p)
  | ifThen _ _ ihInner ihAfter =>
    simp only [usesOf_ifTrue, bindersOf_ifTrue, List.mem_append]
    grind
  | ifElse _ _ _ ihLeft ihRight ihAfter =>
    simp only [usesOf_branchNode, bindersOf_branchNode, List.mem_append]
    grind
  | loop _ _ _ _ ihLeft ihRight ihAfter =>
    simp only [usesOf_loop, bindersOf_loop, List.mem_append, List.mem_cons] at *
    grind
  | bind _ _ _ ihWithin ihAfter =>
    simp only [usesOf_append, bindersOf_append, usesOf_pinNodes, bindersOf_pinNodes,
      usesOf_unpinNodes, bindersOf_unpinNodes, List.append_nil, List.nil_append,
      List.mem_append] at *
    grind

/-- **A function refers to the pins that it binds, and so does the main code.** -/
theorem LexicalAll.mem_of_mem_usesOf {g : Globals} {heads : List Head} {items : List Item}
    {fs : List Func} {main : List Node} (h : LexicalAll g heads items fs main) :
    (∀ f ∈ fs, ∀ p ∈ usesOf f.body, p ∈ bindersOf f.body)
      ∧ ∀ p ∈ usesOf main, p ∈ bindersOf main := by
  induction h with
  | nil => simp
  | statement built _ ih =>
    refine ⟨ih.1, fun p used => ?_⟩
    rw [usesOf_append, List.mem_append] at used
    rw [bindersOf_append, List.mem_append]
    exact used.imp (fun used => (built.mem_of_mem_usesOf p used).resolve_left List.not_mem_nil)
      (ih.2 p)
  | stray _ ih => exact ih
  | plain _ ih => exact ih
  | function named built _ ih =>
    refine ⟨List.forall_mem_cons.2 ⟨fun p used => ?_, ih.1⟩, ih.2⟩
    simp only [Head.func, usesOf_append, bindersOf_append, usesOf_pinNodes, bindersOf_pinNodes,
      usesOf_unpinNodes, bindersOf_unpinNodes, List.append_nil, List.nil_append,
      List.mem_append] at used ⊢
    exact built.mem_of_mem_usesOf p used

end PinnedStack
