import PinnedStack.Program
import PinnedStack.Survey
import PinnedStack.Token.Scan

/-!
# The second reading: bodies

The tokens are read once, with a list of the blocks that are open.

* `Frame` — an open block and what it will become. `OpenBlock` adds the nodes read so far.
* `Reader` — the program so far, the open blocks and what the next token has to be.
* `Reader.resolve` — the meaning of a word: pins come first, then operations, the operations on
  records, and global names.
* `Reader.step` / `Reader.finish` — one token, and the end of the text.
* `Program.ofTokens` — both readings.
-/

namespace PinnedStack

/-- An open block, with what is known of the node that it ends up in. The arm after `else` keeps the
nodes of the one before. -/
inductive Frame where
  | function (head : Head) (opener : Place) (firstSlot : Nat) (pins : List Pin)
  | whenTrue (label : Nat) (place : Place)
  | whenFalse (yes : List Node) (label : Nat) (place : Place)
  | loopCondition (iterator : Pin) (label : Nat) (place : Place)
  | loopBody (iterator : Pin) (condition : List Node) (label : Nat) (place : Place)
  | bindBody (pins : List Pin) (place : Place)

namespace Frame

/-- The block that has to be closed. -/
def block : Frame → Block
  | function head _ _ _ => .function head.name
  | whenTrue _ _ => .whenTrue
  | whenFalse _ _ _ => .whenFalse
  | loopCondition _ _ _ => .loopCondition
  | loopBody _ _ _ _ => .loopBody
  | bindBody _ _ => .bindBody

/-- The place of the keyword that opened it. -/
def opener : Frame → Place
  | function _ opener _ _ => opener
  | whenTrue _ place => place
  | whenFalse _ _ place => place
  | loopCondition _ _ place => place
  | loopBody _ _ _ place => place
  | bindBody _ place => place

end Frame

structure OpenBlock where
  frame : Frame
  nodes : List Node

/-- What the next token of the second reading has to be: a statement (or the end of a block or,
outside all blocks, a definition), part of a function's head, which ends at `)`, part of a plain
definition, which ends at `;`, the name of a loop's pin, or a name of a `bind`. -/
inductive Reader.Phase where
  | statement
  | head (head : Head) (opener : Place)
  | plain
  | iterator (opener : Place)
  | names (pins : List Pin) (opener : Place)

/-- The second reading up to some token: the heads of the functions whose text lies ahead, the
functions that are read, the code outside all definitions, and the open blocks, the innermost
first. -/
structure Reader where
  supply : Supply
  heads : List Head
  functions : List Func
  main : List Node
  blocks : List OpenBlock
  phase : Reader.Phase

namespace Reader

/-- Before the first token. -/
def start (s : Survey) : Reader := ⟨s.supply, s.heads, [], [], [], .statement⟩

/-- Adds nodes to the innermost block, or to the code outside all definitions. -/
def add (r : Reader) (nodes : List Node) : Reader :=
  match r.blocks with
  | [] => { r with main := r.main ++ nodes }
  | b :: outer => { r with blocks := { b with nodes := b.nodes ++ nodes } :: outer }

/-- Opens a block inside the innermost one. -/
def push (r : Reader) (frame : Frame) : Reader := { r with blocks := ⟨frame, []⟩ :: r.blocks }

/-- The operations that bind pins to the values on the stack, the last pin to the top. -/
def pinNodes (pins : List Pin) (place : Place) : List Node :=
  pins.reverse.map fun p => .op (.pin p) place

/-- The operations that end the bindings of pins. -/
def unpinNodes (pins : List Pin) (place : Place) : List Node :=
  pins.map fun p => .op (.unpin p) place

/-- Takes pins out of scope, the last one first. -/
def unpinAll (s : Supply) (pins : List Pin) : Supply :=
  pins.reverse.foldl (fun s p => (s.unpin p.name).2) s

/-! ## Names -/

/-- The operation on a record's words that a word names: `S@`, `S!` or `S.field`. -/
def recordOp (g : Globals) (word : String) (place : Place) : Except Diagnostic (Option Op) :=
  match (withoutLast? '@' word).bind g.record? with
  | some r => .ok (some (.load (.record r)))
  | none =>
      match (withoutLast? '!' word).bind g.record? with
      | some r => .ok (some (.store (.record r)))
      | none =>
          match splitAtFirst? '.' word with
          | none => .ok none
          | some (recordName, fieldName) =>
              match g.record? recordName with
              | none => .ok none
              | some r =>
                  match r.field? fieldName with
                  | some f => .ok (some (.field r f))
                  | none => .error ⟨place, .unresolved word⟩

/-- The node of a global name. -/
def globalNode (g : Globals) (word : String) (place : Place) : Except Diagnostic Node :=
  match g.find? word with
  | some (.function signature) => .ok (.call ⟨signature.label, word, signature.contract⟩ place)
  | some (.constant value) => .ok (.op (.number value) place)
  | some (.memory label ty) => .ok (.op (.memory label ty) place)
  | some (.record _) => .error (.malformed place (.bareRecord word))
  | none => .error ⟨place, .unresolved word⟩

/-- The node of a word. -/
def resolve (g : Globals) (s : Supply) (word : String) (place : Place) : Except Diagnostic Node :=
  match s.find? word with
  | some p => .ok (.op (.pinned p) place)
  | none =>
      match (withoutLast? '!' word).bind s.find? with
      | some p => .ok (.op (.update p) place)
      | none =>
          match Op.builtin? word with
          | some op => .ok (.op op place)
          | none =>
              match recordOp g word place with
              | .error d => .error d
              | .ok (some op) => .ok (.op op place)
              | .ok none => globalNode g word place

/-- The name and the type that a binding gives, as `name` or `name:Type`. -/
def binding (g : Globals) (t : Token) (byDefault : Ty) : Except Diagnostic (String × Ty) :=
  let named (name : String) (ty : Ty) : Except Diagnostic (String × Ty) :=
    match checkPinName name t.place with
    | .ok () => .ok (name, ty)
    | .error d => .error d
  match splitAtFirst? ':' t.lexeme with
  | none => named t.lexeme byDefault
  | some (name, tyText) =>
      match g.tyOf tyText t.place with
      | .ok ty => named name ty
      | .error d => .error d

/-- Brings a name into scope. -/
def bindName (g : Globals) (s : Supply) (t : Token) (byDefault : Ty) :
    Except Diagnostic (Pin × Supply) :=
  match binding g t byDefault with
  | .ok (name, ty) => s.pin name ty t.place
  | .error d => .error d

/-- Brings the named inputs of a function into scope. -/
def bindParams (s : Supply) (place : Place) :
    List (String × Ty) → Except Diagnostic (List Pin × Supply)
  | [] => .ok ([], s)
  | (name, ty) :: rest =>
      match s.pin name ty place with
      | .error d => .error d
      | .ok (p, next) =>
          match bindParams next place rest with
          | .ok (pins, last) => .ok (p :: pins, last)
          | .error d => .error d

/-! ## Blocks -/

/-- Starts the body of a function: its named inputs are pinned first. -/
def openFunction (r : Reader) (head : Head) (opener : Place) : Except Diagnostic Reader :=
  match bindParams r.supply head.place (head.signature.params.getD []) with
  | .error d => .error d
  | .ok (pins, supply) =>
      let frame : Frame := .function head opener r.supply.nextSlot pins
      .ok { r with
        supply := supply
        blocks := ⟨frame, pinNodes pins head.place⟩ :: r.blocks
        phase := .statement }

def openBind (r : Reader) (pins : List Pin) (opener : Place) : Except Diagnostic Reader :=
  if pins.isEmpty then .error (.malformed opener .noBindings)
  else .ok { (r.add (pinNodes pins opener)).push (.bindBody pins opener) with phase := .statement }

/-- Starts the condition of a loop. -/
def openLoop (g : Globals) (r : Reader) (t : Token) (opener : Place) : Except Diagnostic Reader :=
  match bindName g r.supply t .number with
  | .error d => .error d
  | .ok (p, supply) =>
      let (label, supply) := supply.label
      .ok { { r with supply := supply }.push (.loopCondition p label opener) with
        phase := .statement }

/-- Starts the first arm of a branch. -/
def openBranch (r : Reader) (opener : Place) : Reader :=
  let (label, supply) := r.supply.label
  { r with supply := supply }.push (.whenTrue label opener)

/-- The node of a branch with an `else`; without code before it, only the second arm counts. -/
def branchNode (yes no : List Node) (label : Nat) (place : Place) : Node :=
  if yes.isEmpty then .ifFalse no label place else .ifElse yes no label place

/-- Ends the innermost block at a `;`. -/
def close (r : Reader) (b : OpenBlock) (outer : List OpenBlock) : Option Reader :=
  let r := { r with blocks := outer }
  match b.frame with
  | .whenTrue label place => some (r.add [.ifTrue b.nodes label place])
  | .whenFalse yes label place => some (r.add [branchNode yes b.nodes label place])
  | .loopCondition _ _ _ => none
  | .loopBody p condition label place =>
      let (_, supply) := r.supply.unpin p.name
      some ({ r with supply := supply }.add [.loop p condition b.nodes label place])
  | .bindBody pins place =>
      some ({ r with supply := unpinAll r.supply pins }.add (b.nodes ++ unpinNodes pins place))
  | .function head _ firstSlot pins =>
      let f : Func :=
        { label := head.signature.label
          name := head.name
          contract := head.signature.contract
          named := head.signature.params.isSome
          body := b.nodes ++ unpinNodes pins head.place
          firstSlot := firstSlot
          endSlot := r.supply.nextSlot
          place := head.place }
      some { r with supply := unpinAll r.supply pins, functions := r.functions ++ [f] }

/-- A keyword where a statement may stand. -/
def keyword (r : Reader) (k : Keyword) (place : Place) : Except Diagnostic Reader :=
  let unexpected : Except Diagnostic Reader := .error (.malformed place (.unexpected k))
  match k, r.blocks with
  | .branch, _ => .ok (r.openBranch place)
  | .loop, _ => .ok { r with phase := .iterator place }
  | .bind, _ => .ok { r with phase := .names [] place }
  | .semicolon, [] => .ok r
  | .semicolon, b :: outer =>
      match r.close b outer with
      | some next => .ok next
      | none => unexpected
  | .otherwise, ⟨.whenTrue label opener, nodes⟩ :: outer =>
      .ok { r with blocks := ⟨.whenFalse nodes label opener, []⟩ :: outer }
  | .body, ⟨.loopCondition p label opener, nodes⟩ :: outer =>
      .ok { r with blocks := ⟨.loopBody p nodes label opener, []⟩ :: outer }
  | .colon, [] =>
      match r.heads with
      | head :: rest => .ok { r with heads := rest, phase := .head head place }
      | [] => .error (.malformed place .unrecorded)
  | .record, [] => .ok { r with phase := .plain }
  | .constant, [] => .ok { r with phase := .plain }
  | .memory, [] => .ok { r with phase := .plain }
  | _, _ => unexpected

/-- A token where a statement may stand. -/
def statement (g : Globals) (r : Reader) (t : Token) : Except Diagnostic Reader :=
  match t.kind with
  | .int value => .ok (r.add [.op (.number value) t.place])
  | .str text =>
      let bytes := utf8Bytes text
      let (label, supply) := r.supply.literal bytes
      .ok ({ r with supply := supply }.add [.op (.string label bytes.length) t.place])
  | .cstr text =>
      let (label, supply) := r.supply.terminated (utf8Bytes text)
      .ok ({ r with supply := supply }.add [.op (.cstring label) t.place])
  | .word =>
      match resolve g r.supply t.lexeme t.place with
      | .ok node => .ok (r.add [node])
      | .error d => .error d
  | .keyword k => r.keyword k t.place

/-- A token among the names of a `bind`. -/
def bindToken (g : Globals) (r : Reader) (t : Token) (pins : List Pin) (opener : Place) :
    Except Diagnostic Reader :=
  match t.kind with
  | .keyword .within => r.openBind pins opener
  | .word =>
      match bindName g r.supply t .runtime with
      | .ok (p, supply) => .ok { r with supply := supply, phase := .names (pins ++ [p]) opener }
      | .error d => .error d
  | _ => .error (.malformed t.place (.invalidBinding t.lexeme))

/-- Reads one token. -/
def step (g : Globals) (r : Reader) (t : Token) : Except Diagnostic Reader :=
  match r.phase with
  | .statement => statement g r t
  | .head head opener =>
      if t.kind = .keyword .closeParen then r.openFunction head opener else .ok r
  | .plain => .ok (if t.kind = .keyword .semicolon then { r with phase := .statement } else r)
  | .iterator opener =>
      if t.kind = .word then openLoop g r t opener
      else .error (.malformed t.place .missingIterator)
  | .names pins opener => bindToken g r t pins opener

/-- Reads tokens until the first fault. -/
def run (g : Globals) (r : Reader) : List Token → Except Diagnostic Reader
  | [] => .ok r
  | t :: ts =>
      match step g r t with
      | .ok next => run g next ts
      | .error d => .error d

/-- Ends the text: no block may be open. -/
def finish (r : Reader) (stop : Place) : Except Diagnostic Reader :=
  match r.phase, r.blocks with
  | .statement, [] => .ok r
  | .statement, b :: _ =>
      .error (.malformed b.frame.opener (.unterminated b.frame.block))
  | .head head opener, _ => .error (.malformed opener (.unterminated (.function head.name)))
  | .plain, _ => .ok r
  | .iterator _, _ => .error (.malformed stop .missingIterator)
  | .names _ opener, _ => .error (.malformed opener (.unterminated .bindNames))

theorem run_append (g : Globals) (r : Reader) (a b : List Token) :
    run g r (a ++ b) = (run g r a).bind (run g · b) := by
  induction a generalizing r with
  | nil => rfl
  | cons t a ih =>
    simp only [List.cons_append, run]
    cases step g r t with
    | ok next => exact ih next
    | error d => rfl

end Reader

/-- The code outside all definitions as a function that takes and leaves nothing. -/
def Func.entry (body : List Node) (place : Place) : Func :=
  { label := "_start"
    name := "main"
    contract := .empty
    named := false
    body := body
    firstSlot := 0
    endSlot := 0
    place := place }

/-- The program that tokens spell, with its data. -/
def Program.ofTokens (limits : Limits) (text : Scanned) : Except Diagnostic (Program × Tables) :=
  match Survey.ofTokens limits text with
  | .error d => .error d
  | .ok survey =>
      match Reader.run survey.globals (.start survey) text.tokens with
      | .error d => .error d
      | .ok r =>
          match r.finish text.stop with
          | .error d => .error d
          | .ok r => .ok (⟨r.functions, .entry r.main text.start⟩, r.supply.tables)

/-- The program that a text spells, with its data. -/
def Program.ofText (limits : Limits) (text file : String) : Except Diagnostic (Program × Tables) :=
  match Scanned.ofText text file with
  | .ok scanned => Program.ofTokens limits scanned
  | .error d => .error d

end PinnedStack
