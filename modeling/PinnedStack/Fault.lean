import PinnedStack.Place
import PinnedStack.Keyword

/-!
# What can go wrong

* `Form` — what a definition introduces.
* `Block` — the constructs that are closed by a later keyword.
* `Malformation` — the ways a text can break the grammar or the rules on names.
* `Fault` — every cause for which a program is refused; `Fault.message` holds the wording.
* `Diagnostic` — a fault at a place. The first one ends the work.
-/

namespace PinnedStack

/-- A definition that holds no blocks and so ends at the first `;`. -/
inductive Plain where
  | record
  | constant
  | memory
deriving DecidableEq

/-- The keyword that introduces a plain definition. -/
def Plain.keyword : Plain → Keyword
  | record => .record
  | constant => .constant
  | memory => .memory

/-- What a definition introduces. -/
inductive Form where
  | plain (plain : Plain)
  | function
deriving DecidableEq

namespace Form

/-- How messages name what is defined. -/
def noun : Form → String
  | plain .record => "a structure"
  | plain .constant => "a constant"
  | plain .memory => "a memory"
  | function => "a function"

/-- The keyword that introduces a definition. -/
def keyword : Form → Keyword
  | plain p => p.keyword
  | function => .colon

/-- The form of the definition that a keyword introduces. -/
def ofKeyword? : Keyword → Option Form
  | .record => some (plain .record)
  | .constant => some (plain .constant)
  | .memory => some (plain .memory)
  | .colon => some function
  | _ => none

end Form

/-- A construct that stays open until a closing keyword. `whenTrue` and `whenFalse` are the arms of
an `if`, `bindNames` is the list of names before `in`. -/
inductive Block where
  | plain (plain : Plain)
  | function (name : String)
  | whenTrue
  | whenFalse
  | loopCondition
  | loopBody
  | bindNames
  | bindBody
deriving DecidableEq

namespace Block

/-- How messages name a block. -/
def text : Block → String
  | plain p => s!"`{p.keyword.text}`"
  | function name => s!"definition of `{name}`"
  | whenTrue => "`if`"
  | whenFalse => "`else`"
  | loopCondition => "`loop` condition"
  | loopBody => "`loop`"
  | bindNames => "`bind`"
  | bindBody => "`bind`"

/-- The keywords that end a block. -/
def closers : Block → List Keyword
  | whenTrue => [.otherwise, .semicolon]
  | loopCondition => [.body]
  | bindNames => [.within]
  | _ => [.semicolon]

end Block

/-- A breach of the grammar or of the rules on names. `unrecorded` is a definition that the first
reading did not record, `stated` a breach in the words of whoever reports it. -/
inductive Malformation where
  | unterminatedLiteral (quote : Char)
  | literalEndsInEscape
  | unknownEscape (escaped : Char)
  | literalNotSeparated
  | characterNotOneByte
  | invalidInteger (word : String)
  | missingName (form : Form)
  | missingSignature (function : String)
  | invalidInput (function found : String)
  | invalidOutput (function found : String)
  | mixedInputs (function : String)
  | invalidField (record found : String)
  | wideField (field found : String)
  | repeatedField (field record : String)
  | noFields (record : String)
  | negativeSize (memory : String) (size : Int)
  | noValue (left right : Int) (op : String)
  | notConstant (found : String)
  | valueCount (constant : String) (count : Nat)
  | unterminated (block : Block)
  | unexpected (keyword : Keyword)
  | missingIterator
  | invalidBinding (found : String)
  | noBindings
  | invalidPinName (name : String)
  | reservedPinName (name : String)
  | reservedName (name : String)
  | invalidName (name : String)
  | missingType
  | bareRecord (name : String)
  | unrecorded
  | stated (message : String)
deriving DecidableEq

/-- The wording of a breach. -/
def Malformation.message : Malformation → String
  | unterminatedLiteral quote => s!"unterminated literal: expected closing {quote}"
  | literalEndsInEscape => "unterminated literal: input ends after `\\`"
  | unknownEscape escaped => s!"unknown escape sequence `\\{escaped}`"
  | literalNotSeparated => "expected whitespace after literal"
  | characterNotOneByte => "character literal must hold exactly one byte"
  | invalidInteger word => s!"invalid integer literal `{word}`"
  | missingName form => s!"expected {form.noun} name after `{form.keyword.text}`"
  | missingSignature function => s!"expected `(` to open the signature of `{function}`"
  | invalidInput function found =>
      s!"expected an input type or `--` in the signature of `{function}`, found `{found}`"
  | invalidOutput function found =>
      s!"expected an output type or `)` in the signature of `{function}`, found `{found}`"
  | mixedInputs function => s!"signature of `{function}` mixes named and anonymous inputs"
  | invalidField record found => s!"expected `field:Type` in `{record}`, found `{found}`"
  | wideField field found => s!"field `{field}` must be a single word, found {found}"
  | repeatedField field record => s!"field `{field}` appears twice in `{record}`"
  | noFields record => s!"`{record}` needs at least one field"
  | negativeSize memory size => s!"memory `{memory}` has negative size {size}"
  | noValue left right op => s!"`{left} {right} {op}` overflows or divides by zero"
  | notConstant found => s!"`{found}` is not allowed in a constant expression"
  | valueCount constant count => s!"`{constant}` must evaluate to exactly one value, found {count}"
  | unterminated block =>
      let closers := String.intercalate " or " (block.closers.map fun k => s!"`{k.text}`")
      s!"unterminated {block.text}: expected {closers}"
  | unexpected keyword => s!"unexpected `{keyword.text}`"
  | missingIterator => "expected an iterator name after `loop`"
  | invalidBinding found => s!"expected a name or `in` in `bind`, found `{found}`"
  | noBindings => "`bind` needs at least one name"
  | invalidPinName name => s!"`{name}` is not a valid pin name"
  | reservedPinName name => s!"`{name}` is a builtin and cannot be pinned"
  | reservedName name => s!"`{name}` is a builtin and cannot be redefined"
  | invalidName name => s!"`{name}` is not a valid name"
  | missingType => "missing type name"
  | bareRecord name => s!"`{name}` is a structure; use `{name}@`, `{name}!` or `{name}.field`"
  | unrecorded => "function definition was not registered"
  | stated message => message

/-- A cause for refusing a program. The shape of a branch or of a loop is at fault where a part
changes the stack or two parts disagree, a contract where the body does not leave what it
declares. -/
inductive Fault where
  | underflow (op : String) (required available : Nat)
  | mismatch (op expected found : String)
  | branchShape (message report : String)
  | loopShape (message report : String)
  | duplicate (name : String) (previous : Place)
  | unresolved (name : String)
  | contract (function expected found report : String)
  | malformed (cause : Malformation)
  | pinsExhausted (name : String) (requested capacity : Nat)
deriving DecidableEq

/-- The wording of a fault. -/
def Fault.message : Fault → String
  | underflow op required available =>
      s!"stack underflow in `{op}`: requires {required} item(s), {available} available"
  | mismatch op expected found => s!"type mismatch in `{op}`: expected {expected}, found {found}"
  | branchShape message report => s!"{message}\n{report}"
  | loopShape message report => s!"{message}\n{report}"
  | duplicate name previous => s!"`{name}` is already defined at {previous.text}"
  | unresolved name => s!"unresolved identifier `{name}`"
  | contract function expected found report =>
      s!"`{function}` does not honor its contract: expected {expected}, body leaves {found}"
        ++ s!"\n{report}"
  | malformed cause => s!"malformed syntax: {cause.message}"
  | pinsExhausted name requested capacity =>
      s!"pinning `{name}` needs {requested} more word(s) but pin storage holds {capacity}"

structure Diagnostic where
  place : Place
  fault : Fault
deriving DecidableEq

namespace Diagnostic

/-- A breach of the grammar at a place. -/
def malformed (place : Place) (cause : Malformation) : Diagnostic := ⟨place, .malformed cause⟩

/-- The line shown to the user. -/
def message (d : Diagnostic) : String := s!"{d.place.text}: error: {d.fault.message}"

end Diagnostic

/-- Gives the fault of a failed step its place. -/
def located {α : Type} (place : Place) : Except Fault α → Except Diagnostic α
  | .ok a => .ok a
  | .error fault => .error ⟨place, fault⟩

end PinnedStack
