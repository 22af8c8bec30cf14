import PinnedStack.Constant
import PinnedStack.Supply

/-!
# The first reading: definitions

Every definition is recorded before any body is read, so a function may be used above its own text.

* `Head` — what the first reading records of a function.
* `Survey` — the definitions so far and what is being read.
* `Survey.step` / `Survey.finish` — one token, and the end of the text.
* `Survey.ofTokens` — all definitions of a text.
-/

namespace PinnedStack

/-- A function as the first reading records it, at the place of its name. -/
structure Head where
  name : String
  signature : Signature
  place : Place
deriving DecidableEq

/-- The name that a definition gives and the place of the keyword in front of it. -/
structure Naming where
  opener : Place
  name : Token
deriving DecidableEq

/-- What the next token of the first reading belongs to: nothing, or a part of a definition. The
tokens of a plain definition are kept with the latest first, a body with the number of `;` that end
it. -/
inductive Survey.Phase where
  | between
  | naming (form : Form) (opener : Place)
  | collecting (plain : Plain) (naming : Naming) (tokens : List Token)
  | opening (naming : Naming)
  | inputs (naming : Naming) (named : List (String × Ty)) (anonymous : List Ty)
  | outputs (naming : Naming) (named : List (String × Ty)) (anonymous outputs : List Ty)
  | body (naming : Naming) (contract : Contract) (params : Option (List (String × Ty)))
      (depth : Nat)

/-- The first reading up to some token, with the functions in the order of their definitions. -/
structure Survey where
  globals : Globals
  supply : Supply
  heads : List Head
  phase : Survey.Phase

namespace Survey

/-- Before the first token. -/
def start (limits : Limits) : Survey := ⟨.initial, .ofLimits limits, [], .between⟩

/-! ## Records, constants and memories -/

/-- Adds one field, given as `field:Type`, to those of a record. -/
def addField (g : Globals) (record : String) (fields : List PinnedStack.Field) (t : Token) :
    Except Diagnostic (List PinnedStack.Field) :=
  let refused : Except Diagnostic (List PinnedStack.Field) :=
    .error (.malformed t.place (.invalidField record t.lexeme))
  match t.kind, splitAtFirst? ':' t.lexeme with
  | .word, some (name, tyText) =>
      if name = "" then refused
      else
        match g.tyOf tyText t.place with
        | .error d => .error d
        | .ok ty =>
            match ty.kind? with
            | none => .error (.malformed t.place (.wideField name ty.text))
            | some kind =>
                if fields.any (·.name == name) then
                  .error (.malformed t.place (.repeatedField name record))
                else .ok (fields ++ [⟨name, kind⟩])
  | _, _ => refused

/-- The fields that tokens spell. -/
def fieldsOf (g : Globals) (record : String) (fields : List PinnedStack.Field) :
    List Token → Except Diagnostic (List PinnedStack.Field)
  | [] => .ok fields
  | t :: ts =>
      match addField g record fields t with
      | .ok more => fieldsOf g record more ts
      | .error d => .error d

/-- The record that tokens spell. -/
def recordOf (g : Globals) (name : Token) (tokens : List Token) : Except Diagnostic Record :=
  match fieldsOf g name.lexeme [] tokens with
  | .error d => .error d
  | .ok [] => .error (.malformed name.place (.noFields name.lexeme))
  | .ok fields => .ok ⟨name.lexeme, fields⟩

/-- A region of an expression's size; its bytes have no type. -/
def bareRegion (g : Globals) (name : Token) (tokens : List Token) : Except Diagnostic (Ty × Nat) :=
  match Constant.eval g name tokens with
  | .error d => .error d
  | .ok size =>
      if size < 0 then .error (.malformed name.place (.negativeSize name.lexeme size.toInt))
      else .ok (.pointer, size.toInt.toNat)

/-- The type of a region's address and its size: a lone record's name gives both. -/
def regionOf (g : Globals) (name : Token) (tokens : List Token) : Except Diagnostic (Ty × Nat) :=
  match tokens with
  | [only] =>
      if only.kind = .word then
        match g.record? only.lexeme with
        | some r => .ok (.pointerTo (.ofRecord r), (Ty.ofRecord r).size)
        | none => bareRegion g name tokens
      else bareRegion g name tokens
  | _ => bareRegion g name tokens

/-- Records a plain definition whose tokens are known. -/
def definePlain (s : Survey) (plain : Plain) (name : Token) (tokens : List Token) :
    Except Diagnostic Survey :=
  let add (supply : Supply) (meaning : Meaning) : Except Diagnostic Survey :=
    match s.globals.define name.lexeme meaning name.place with
    | .ok globals => .ok { s with globals := globals, supply := supply, phase := .between }
    | .error d => .error d
  match plain with
  | .record =>
      match recordOf s.globals name tokens with
      | .ok r => add s.supply (.record r)
      | .error d => .error d
  | .constant =>
      match Constant.eval s.globals name tokens with
      | .ok value => add s.supply (.constant value)
      | .error d => .error d
  | .memory =>
      match regionOf s.globals name tokens with
      | .ok (ty, size) =>
          let (label, supply) := s.supply.region name.lexeme size
          add supply (.memory label ty)
      | .error d => .error d

/-! ## Functions -/

/-- Records a function. -/
def defineFunction (s : Survey) (naming : Naming) (contract : Contract)
    (params : Option (List (String × Ty))) : Except Diagnostic Survey :=
  let id := s.heads.length
  let signature : Signature := ⟨id, s!"fn_{id}", contract, params⟩
  let name := naming.name
  match s.globals.define name.lexeme (.function signature) name.place with
  | .error d => .error d
  | .ok globals =>
      .ok { s with
        globals := globals
        heads := s.heads ++ [⟨name.lexeme, signature, name.place⟩]
        phase := .between }

/-- One input of a signature, given as `Type` or `name:Type`. -/
def input (g : Globals) (naming : Naming) (named : List (String × Ty)) (anonymous : List Ty)
    (t : Token) : Except Diagnostic Phase :=
  match splitAtFirst? ':' t.lexeme with
  | some (name, tyText) =>
      match checkPinName name t.place with
      | .error d => .error d
      | .ok () =>
          match g.tyOf tyText t.place with
          | .ok ty => .ok (.inputs naming (named ++ [(name, ty)]) anonymous)
          | .error d => .error d
  | none =>
      match g.tyOf t.lexeme t.place with
      | .ok ty => .ok (.inputs naming named (anonymous ++ [ty]))
      | .error d => .error d

/-- The end of a signature: the inputs have names all or none. -/
def signature (naming : Naming) (named : List (String × Ty)) (anonymous outputs : List Ty) :
    Except Diagnostic Phase :=
  match named, anonymous with
  | [], _ => .ok (.body naming ⟨anonymous, outputs⟩ none 1)
  | _ :: _, [] => .ok (.body naming ⟨named.map (·.2), outputs⟩ (some named) 1)
  | _ :: _, _ :: _ => .error (.malformed naming.name.place (.mixedInputs naming.name.lexeme))

/-! ## One token -/

/-- The phase after a token that ends no definition. -/
def advance (g : Globals) (t : Token) : Phase → Except Diagnostic Phase
  | .between =>
      match t.kind with
      | .keyword k =>
          match Form.ofKeyword? k with
          | some form => .ok (.naming form t.place)
          | none => .ok .between
      | _ => .ok .between
  | .naming form opener =>
      if t.kind = .word then
        match form with
        | .plain p => .ok (.collecting p ⟨opener, t⟩ [])
        | .function => .ok (.opening ⟨opener, t⟩)
      else .error (.malformed t.place (.missingName form))
  | .collecting plain naming tokens => .ok (.collecting plain naming (t :: tokens))
  | .opening naming =>
      if t.kind = .keyword .openParen then .ok (.inputs naming [] [])
      else .error (.malformed t.place (.missingSignature naming.name.lexeme))
  | .inputs naming named anonymous =>
      match t.kind with
      | .keyword .dashes => .ok (.outputs naming named anonymous [])
      | .word => input g naming named anonymous t
      | _ => .error (.malformed t.place (.invalidInput naming.name.lexeme t.lexeme))
  | .outputs naming named anonymous outputs =>
      match t.kind with
      | .keyword .closeParen => signature naming named anonymous outputs
      | .word =>
          match g.tyOf t.lexeme t.place with
          | .ok ty => .ok (.outputs naming named anonymous (outputs ++ [ty]))
          | .error d => .error d
      | _ => .error (.malformed t.place (.invalidOutput naming.name.lexeme t.lexeme))
  | .body naming contract params depth =>
      match t.kind with
      | .keyword .branch => .ok (.body naming contract params (depth + 1))
      | .keyword .loop => .ok (.body naming contract params (depth + 1))
      | .keyword .bind => .ok (.body naming contract params (depth + 1))
      | .keyword .semicolon => .ok (.body naming contract params (depth - 1))
      | _ => .ok (.body naming contract params depth)

/-- Reads one token. A `;` ends a plain definition and, where no block is open, a function. -/
def step (s : Survey) (t : Token) : Except Diagnostic Survey :=
  match s.phase, t.kind with
  | .collecting plain naming tokens, .keyword .semicolon =>
      s.definePlain plain naming.name tokens.reverse
  | .body naming contract params 1, .keyword .semicolon => s.defineFunction naming contract params
  | phase, _ =>
      match advance s.globals t phase with
      | .ok next => .ok { s with phase := next }
      | .error d => .error d

/-- Reads tokens until the first fault. -/
def run (s : Survey) : List Token → Except Diagnostic Survey
  | [] => .ok s
  | t :: ts =>
      match s.step t with
      | .ok next => next.run ts
      | .error d => .error d

/-- Ends the text: no definition may be open. -/
def finish (s : Survey) (stop : Place) : Except Diagnostic Survey :=
  match s.phase with
  | .between => .ok s
  | .naming form _ => .error (.malformed stop (.missingName form))
  | .collecting plain naming _ => .error (.malformed naming.opener (.unterminated (.plain plain)))
  | .opening naming => .error (.malformed stop (.missingSignature naming.name.lexeme))
  | .inputs naming _ _ => .error (.malformed stop (.invalidInput naming.name.lexeme ""))
  | .outputs naming _ _ _ => .error (.malformed stop (.invalidOutput naming.name.lexeme ""))
  | .body naming _ _ _ =>
      .error (.malformed naming.opener (.unterminated (.function naming.name.lexeme)))

def ofTokens (limits : Limits) (text : Scanned) : Except Diagnostic Survey :=
  match (start limits).run text.tokens with
  | .ok s => s.finish text.stop
  | .error d => .error d

theorem run_append (s : Survey) (a b : List Token) :
    s.run (a ++ b) = (s.run a).bind (·.run b) := by
  induction a generalizing s with
  | nil => rfl
  | cons t a ih =>
    simp only [List.cons_append, run]
    cases s.step t with
    | ok next => exact ih next
    | error d => rfl

end Survey

end PinnedStack
