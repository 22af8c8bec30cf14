import PinnedStack.Globals
import PinnedStack.Word
import PinnedStack.Token.Basic

/-!
# Constant expressions

* `Binary.fold` — an operator on two known words, without a silent overflow of `+ - * / %`.
* `Constant.eval` — the value of a postfix expression over integers, constants and records, where a
  record stands for its size in bytes.
-/

namespace PinnedStack

/-- The distance of a shift, which has to be below the width of a word. -/
def shiftDistance? (b : Int64) : Option Int64 := if 0 ≤ b ∧ b < 64 then some b else none

/-- One for true and zero for false. -/
def flag (b : Bool) : Int64 := if b then 1 else 0

/-- The value of an operator on known words. Sums, differences, products and quotients have to fit
a word, and the remainder is refused where the quotient is. Bits shifted out to the left are lost,
and a shift to the right keeps the sign. -/
def Binary.fold : Binary → Int64 → Int64 → Option Int64
  | add, a, b => word? (a.toInt + b.toInt)
  | sub, a, b => word? (a.toInt - b.toInt)
  | mul, a, b => word? (a.toInt * b.toInt)
  | div, a, b => if b = 0 then none else word? (a.toInt.tdiv b.toInt)
  | mod, a, b =>
      if b = 0 then none
      else (word? (a.toInt.tdiv b.toInt)).bind fun _ => word? (a.toInt.tmod b.toInt)
  | and, a, b => some (a &&& b)
  | or, a, b => some (a ||| b)
  | xor, a, b => some (a ^^^ b)
  | shl, a, b => (shiftDistance? b).map (a <<< ·)
  | shr, a, b => (shiftDistance? b).map (a >>> ·)
  | eq, a, b => some (flag (a = b))
  | ne, a, b => some (flag (a ≠ b))
  | lt, a, b => some (flag (a < b))
  | gt, a, b => some (flag (b < a))
  | le, a, b => some (flag (a ≤ b))
  | ge, a, b => some (flag (b ≤ a))

namespace Constant

/-- Applies an operator to the top two values. -/
def apply (op : Binary) (place : Place) : List Int64 → Except Diagnostic (List Int64)
  | b :: a :: rest =>
      match op.fold a b with
      | some value => .ok (value :: rest)
      | none => .error (.malformed place (.noValue a.toInt b.toInt op.symbol))
  | stack => .error ⟨place, .underflow op.symbol 2 stack.length⟩

/-- The value a name stands for. -/
def valueOf (g : Globals) (name : String) (place : Place) : Except Diagnostic Int64 :=
  match g.find? name with
  | some (.constant value) => .ok value
  | some (.record r) => .ok (Int64.ofNat r.size)
  | _ => .error ⟨place, .unresolved name⟩

/-- One token of an expression; the top of the stack stands first. -/
def step (g : Globals) (stack : List Int64) (t : Token) : Except Diagnostic (List Int64) :=
  match t.kind with
  | .int value => .ok (value :: stack)
  | .word =>
      match Binary.ofSymbol? t.lexeme with
      | some op => apply op t.place stack
      | none =>
          match valueOf g t.lexeme t.place with
          | .ok value => .ok (value :: stack)
          | .error d => .error d
  | _ => .error (.malformed t.place (.notConstant t.lexeme))

/-- The stack after an expression. -/
def run (g : Globals) (stack : List Int64) : List Token → Except Diagnostic (List Int64)
  | [] => .ok stack
  | t :: ts =>
      match step g stack t with
      | .ok next => run g next ts
      | .error d => .error d

/-- The one value of an expression; `name` is what it defines. -/
def eval (g : Globals) (name : Token) (expression : List Token) : Except Diagnostic Int64 :=
  match run g [] expression with
  | .error d => .error d
  | .ok [value] => .ok value
  | .ok stack => .error (.malformed name.place (.valueCount name.lexeme stack.length))

theorem run_append (g : Globals) (stack : List Int64) (a b : List Token) :
    run g stack (a ++ b) = (run g stack a).bind (run g · b) := by
  induction a generalizing stack with
  | nil => rfl
  | cons t a ih =>
    simp only [List.cons_append, run]
    cases step g stack t with
    | ok next => exact ih next
    | error d => rfl

/-! ### What has a value -/

section Ok

variable {g : Globals} {name : String} {place : Place} {stack next out : List Int64} {t : Token}
  {ts : List Token} {v : Int64}

theorem apply_eq_ok {op : Binary} : apply op place stack = .ok next ↔ ∃ b a below value,
    stack = b :: a :: below ∧ op.fold a b = some value ∧ next = value :: below := by
  constructor
  · intro ok
    match stack, ok with
    | b :: a :: below, ok =>
      simp only [apply] at ok
      split at ok
      · rename_i value folded
        cases ok
        exact ⟨b, a, below, value, rfl, folded, rfl⟩
      · cases ok
  · rintro ⟨b, a, below, value, rfl, folded, rfl⟩
    simp only [apply, folded]

theorem valueOf_eq_ok : valueOf g name place = .ok v ↔ g.find? name = some (.constant v)
    ∨ ∃ r, g.find? name = some (.record r) ∧ v = Int64.ofNat r.size := by
  unfold valueOf
  constructor
  · intro ok
    split at ok <;> cases ok
    · exact .inl ‹_›
    · exact .inr ⟨_, ‹_›, rfl⟩
  · rintro (found | ⟨r, found, rfl⟩)
    · simp only [found]
    · simp only [found]

/-- A token is an integer, an operator or a name with a value. -/
theorem step_eq_ok : step g stack t = .ok next ↔ (∃ v, t.kind = .int v ∧ next = v :: stack)
    ∨ (t.kind = .word ∧ ∃ op, Binary.ofSymbol? t.lexeme = some op
      ∧ apply op t.place stack = .ok next)
    ∨ t.kind = .word ∧ Binary.ofSymbol? t.lexeme = none
      ∧ ∃ v, valueOf g t.lexeme t.place = .ok v ∧ next = v :: stack := by
  unfold step
  constructor
  · intro ok
    match kind : t.kind with
    | .int v =>
      rw [kind] at ok
      cases ok
      exact .inl ⟨v, rfl, rfl⟩
    | .word =>
      simp only [kind] at ok
      split at ok
      · rename_i op symbol
        exact .inr (.inl ⟨rfl, op, symbol, ok⟩)
      · rename_i other
        split at ok
        · rename_i v valued
          cases ok
          exact .inr (.inr ⟨rfl, other, v, valued, rfl⟩)
        · cases ok
    | .str _ | .cstr _ | .keyword _ => simp only [kind, reduceCtorEq] at ok
  · rintro (⟨v, int, rfl⟩ | ⟨word, op, symbol, applied⟩ | ⟨word, other, v, valued, rfl⟩)
    · simp only [int]
    · simp only [word, symbol, applied]
    · simp only [word, other, valued]

theorem eval_eq_ok {name : Token} : eval g name ts = .ok v ↔ run g [] ts = .ok [v] := by
  unfold eval
  constructor
  · intro ok
    split at ok
    · cases ok
    · rename_i value ran
      cases ok
      exact ran
    · cases ok
  · intro ran
    rw [ran]

/-- In an expression with a value there stand integers and words only. -/
theorem kind_of_run (ok : run g stack ts = .ok out) :
    ∀ t ∈ ts, (∃ v, t.kind = .int v) ∨ t.kind = .word := by
  induction ts generalizing stack with
  | nil => exact fun t mem => nomatch mem
  | cons t ts ih =>
    rw [run] at ok
    split at ok
    · rename_i next here
      refine List.forall_mem_cons.2 ⟨?_, ih ok⟩
      obtain ⟨v, int, -⟩ | ⟨word, -⟩ | ⟨word, -⟩ := step_eq_ok.1 here
      · exact .inl ⟨v, int⟩
      · exact .inr word
      · exact .inr word
    · cases ok

end Ok

end Constant

end PinnedStack
