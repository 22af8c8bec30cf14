import PinnedStack.Contract
import PinnedStack.Pin

/-!
# Primitive operations

* `Binary` — the sixteen operators on two numbers. `Access` — how much a load or store moves.
* `Op` — every primitive operation of a program, with its operands resolved.
* `Op.builtin?` — the operation a word names wherever no pin hides it.
* `Op.contract?` — the contract of an operation whose effect does not depend on the types it meets.
-/

namespace PinnedStack

/-- An operator on two numbers. -/
inductive Binary where
  | add
  | sub
  | mul
  | div
  | mod
  | and
  | or
  | xor
  | shl
  | shr
  | eq
  | ne
  | lt
  | gt
  | le
  | ge
deriving DecidableEq, Inhabited

namespace Binary

/-- How an operator is written. -/
def symbol : Binary → String
  | add => "+"
  | sub => "-"
  | mul => "*"
  | div => "/"
  | mod => "%"
  | and => "&"
  | or => "|"
  | xor => "^"
  | shl => "<<"
  | shr => ">>"
  | eq => "="
  | ne => "!="
  | lt => "<"
  | gt => ">"
  | le => "<="
  | ge => ">="

def all : List Binary :=
  [add, sub, mul, div, mod, and, or, xor, shl, shr, eq, ne, lt, gt, le, ge]

/-- The operator a word spells. -/
def ofSymbol? (word : String) : Option Binary := all.find? (·.symbol == word)

def isComparison : Binary → Bool
  | eq | ne | lt | gt | le | ge => true
  | _ => false

theorem mem_all (op : Binary) : op ∈ all := by cases op <;> decide

theorem ofSymbol?_symbol (op : Binary) : ofSymbol? op.symbol = some op := by cases op <;> decide

theorem symbol_of_ofSymbol? {word : String} {op : Binary} (h : ofSymbol? word = some op) :
    op.symbol = word := by
  simpa using List.find?_some h

end Binary

/-- How much a load or store moves: a word, one byte (a load fills the rest of the word with zeros),
or every field of a record. -/
inductive Access where
  | word
  | byte
  | record (record : Record)
deriving DecidableEq

/-- A primitive operation. `string` pushes the length of a literal and its address, `cstring` the
address of one that ends at its first zero. `field` moves the address of a record to one of its
fields. `pin` takes a value off the stack into the slots of a pin, `pinned` pushes it and `update`
replaces it. -/
inductive Op where
  | number (value : Int64)
  | bool (value : Bool)
  | string (label : String) (length : Nat)
  | cstring (label : String)
  | memory (label : String) (ty : Ty)
  | dup
  | drop
  | swap
  | copySecond
  | rot
  | print
  | binary (op : Binary)
  | not
  | streq
  | load (access : Access)
  | store (access : Access)
  | field (record : Record) (field : PlacedField)
  | syscall (arguments : Nat)
  | cast (kind : Kind)
  | pin (pin : Pin)
  | unpin (pin : Pin)
  | pinned (pin : Pin)
  | update (pin : Pin)
deriving DecidableEq

namespace Op

/-- Most arguments a system call takes. -/
def maxSyscallArguments : Nat := 6

/-- The words that name one operation each. -/
def named : List (String × Op) :=
  [("dup", dup), ("drop", drop), ("swap", swap), ("over", copySecond), ("rot", rot),
    ("print", print), ("not", not), ("streq", streq), ("true", bool true), ("false", bool false),
    ("@", load .word), ("!", store .word), ("@8", load .byte), ("!8", store .byte),
    ("int", cast .number), ("ptr", cast .pointer)]

/-- The rest of a word after `syscall`. -/
def syscallTail? (word : String) : Option (List Char) := "syscall".toList.isPrefixOf? word.toList

/-- The number of arguments that the one digit after `syscall` gives. -/
def syscallCount? : List Char → Option Nat
  | [c] =>
      if c.isDigit ∧ c.toNat - '0'.toNat ≤ maxSyscallArguments then some (c.toNat - '0'.toNat)
      else none
  | _ => none

/-- The operation a word names. A word that starts with `syscall` is a system call or nothing. -/
def builtin? (word : String) : Option Op :=
  match Binary.ofSymbol? word with
  | some op => some (binary op)
  | none =>
      match syscallTail? word with
      | some tail => (syscallCount? tail).map syscall
      | none => (named.find? (·.1 == word)).map (·.2)

/-- The name of an operation in messages. -/
def name : Op → String
  | number value => toString value.toInt
  | bool value => if value then "true" else "false"
  | string label _ => s!"string {label}"
  | cstring label => s!"string {label}"
  | memory label _ => s!"memory {label}"
  | dup => "dup"
  | drop => "drop"
  | swap => "swap"
  | copySecond => "over"
  | rot => "rot"
  | print => "print"
  | binary op => op.symbol
  | not => "not"
  | streq => "streq"
  | load .word => "@"
  | load .byte => "@8"
  | load (.record r) => s!"{r.name}@"
  | store .word => "!"
  | store .byte => "!8"
  | store (.record r) => s!"{r.name}!"
  | field r f => s!"{r.name}.{f.name}"
  | syscall arguments => s!"syscall{arguments}"
  | cast .pointer => "ptr"
  | cast _ => "int"
  | pin p => s!"pin {p.name}"
  | unpin p => s!"unpin {p.name}"
  | pinned p => p.name
  | update p => s!"update {p.name}"

/-- The contract of an operation whose effect is fixed. Addition, subtraction, the shuffles, wide
loads and stores, system calls and pins depend on the types they meet and have none. -/
def contract? : Op → Option Contract
  | number _ => some ⟨[], [.number]⟩
  | bool _ => some ⟨[], [.number]⟩
  | string _ _ => some ⟨[], [.str]⟩
  | cstring _ => some ⟨[], [.pointer]⟩
  | memory _ ty => some ⟨[], [ty]⟩
  | print => some ⟨[.number], []⟩
  | binary .add => none
  | binary .sub => none
  | binary _ => some ⟨[.number, .number], [.number]⟩
  | not => some ⟨[.number], [.number]⟩
  | streq => some ⟨[.number, .pointer, .number, .pointer], [.number]⟩
  | load .byte => some ⟨[.pointer], [.number]⟩
  | store .byte => some ⟨[.number, .pointer], []⟩
  | field r f => some ⟨[.pointerTo (.ofRecord r)], [.pointerTo (.word f.kind)]⟩
  | cast .pointer => some ⟨[.number], [.pointer]⟩
  | cast _ => some ⟨[.pointer], [.number]⟩
  | _ => none

end Op

end PinnedStack
