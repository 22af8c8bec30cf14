import PinnedStack.Proofs.Tree.FirstReading
import Mathlib.Logic.ExistsUnique

/-!
# Constant expressions are trees in postfix form

* `Globals.Each` — what holds of all names in scope; `Survey.each_of_run` keeps what every accepted
  definition has. `Globals.Unreserved` — no name in scope is an operation; `Survey.unreserved_run` says
  so at every point of the first reading.
* `Constant.Tree` — an expression over operands in scope; `Tree.spell` is its postfix form.
* `Tree.value?` — its value from the leaves up; `Tree.failures` — its operators without a value.
* `Tree.run_spell`, `Tree.run_failing` — what evaluating the postfix form does to a stack.
* `Constant.Held` — a stack of the values of trees that were read one after the other.
* `Constant.eval_trees` — evaluation succeeds on the postfix forms of trees that have a value, and
  each is the form of one tree.
-/

namespace PinnedStack

/-! ## Names in scope -/

/-- All names in scope have a property with what they stand for. -/
def Globals.Each (P : String → Meaning → Prop) (g : Globals) : Prop :=
  ∀ e ∈ g.entries, P e.name e.meaning

/-- A definition that is accepted: the name is defined, and a record was read from its fields. -/
structure Globals.Accepts (g : Globals) (name : String) (meaning : Meaning) (next : Globals) :
    Prop where
  defined : ∃ place, g.define name meaning place = .ok next
  read : ∀ r, meaning = .record r → ∃ token tokens, Survey.recordOf g token tokens = .ok r

/-- No name in scope is reserved. -/
def Globals.Unreserved (g : Globals) : Prop := ∀ e ∈ g.entries, isReserved e.name = false

namespace Globals

variable {g next : Globals} {name : String} {meaning : Meaning} {place : Place}
  {P : String → Meaning → Prop}

theorem unreserved_initial : initial.Unreserved := by
  unfold Unreserved
  decide

theorem unreserved_of_define (defined : g.define name meaning place = .ok next) :
    isReserved name = false := (define_eq_ok.1 defined).1

theorem Each.define (h : g.Each P) (held : P name meaning)
    (defined : g.define name meaning place = .ok next) : next.Each P := by
  obtain ⟨-, -, -, rfl⟩ := define_eq_ok.1 defined
  exact List.forall_mem_cons.2 ⟨held, h⟩

theorem Each.of_find? (h : g.Each P) (found : g.find? name = some meaning) : P name meaning := by
  obtain ⟨entry, here, rfl⟩ := Option.map_eq_some_iff.1 found
  have same : entry.name = name := by simpa using List.find?_some here
  exact same ▸ h entry (List.mem_of_find?_eq_some here)

theorem Unreserved.ofSymbol?_eq_none (h : g.Unreserved) (found : g.find? name = some meaning) :
    Binary.ofSymbol? name = none := by
  have free := Each.of_find? (P := fun name _ => isReserved name = false) h found
  cases symbol : Binary.ofSymbol? name with
  | none => rfl
  | some op => simp [isReserved, Op.builtin?, symbol] at free

end Globals

namespace Survey

variable {s next : Survey}

/-- A token leaves the scope as it is or defines one name. -/
theorem globals_step {t : Token} (ok : s.step t = .ok next) :
    next.globals = s.globals
      ∨ ∃ name meaning, s.globals.Accepts name meaning next.globals := by
  cases step_moves ok with
  | plain _ _ ends =>
    obtain ⟨supply, meaning, globals, yields, defined, rfl⟩ := definePlain_eq_ok.1 ends
    refine .inr ⟨_, meaning, ⟨_, defined⟩, fun r eq => ?_⟩
    cases yields with
    | record spelled =>
      cases eq
      exact ⟨_, _, spelled⟩
    | constant | memory => cases eq
  | function _ _ ends =>
    obtain ⟨globals, defined, rfl⟩ := defineFunction_eq_ok.1 ends
    exact .inr ⟨_, _, ⟨_, defined⟩, nofun⟩
  | onward => exact .inl rfl

/-- What every accepted definition has, all names in scope keep. -/
theorem each_of_run {P : String → Meaning → Prop} {ts : List Token}
    (accepted : ∀ {g next : Globals} {name : String} {meaning : Meaning},
      g.Accepts name meaning next → P name meaning)
    (h : s.globals.Each P) (ok : s.run ts = .ok next) : next.globals.Each P := by
  induction ts generalizing s with
  | nil =>
    cases ok
    exact h
  | cons t ts ih =>
    rw [run] at ok
    split at ok
    · rename_i one here
      rcases globals_step here with same | ⟨name, meaning, accepts⟩
      · exact ih (same ▸ h) ok
      · obtain ⟨place, defined⟩ := accepts.defined
        exact ih (h.define (accepted accepts) defined) ok
    · cases ok

/-- No name that the first reading brings into scope is reserved. -/
theorem unreserved_run {limits : Limits} {ts : List Token} (ok : (start limits).run ts = .ok s) :
    s.globals.Unreserved :=
  each_of_run (s := start limits) (P := fun name _ => isReserved name = false)
    (fun accepts => Globals.unreserved_of_define accepts.defined.choose_spec)
    Globals.unreserved_initial ok

end Survey

namespace Constant

/-! ## Expressions as trees -/

/-- What an operand stands for: an integer for itself, a constant for its value and a record for its
size in bytes. -/
def operand? (g : Globals) (t : Token) : Option Int64 :=
  match t.kind with
  | .int value => some value
  | .word =>
      match g.find? t.lexeme with
      | some (.constant value) => some value
      | some (.record r) => some (Int64.ofNat r.size)
      | _ => none
  | _ => none

structure Operand (g : Globals) where
  token : Token
  value : Int64
  stands : operand? g token = some value

structure Operator where
  token : Token
  op : Binary
  word : token.kind = .word
  spells : token.lexeme = op.symbol

/-- An expression. -/
inductive Tree (g : Globals) where
  | operand (leaf : Operand g)
  | operation (left right : Tree g) (operator : Operator)

/-- An operator that has no value on the values of its operands. -/
structure Failure where
  operator : Operator
  left : Int64
  right : Int64

/-- How a failure is reported. -/
def Failure.diagnostic (f : Failure) : Diagnostic :=
  .malformed f.operator.token.place (.noValue f.left.toInt f.right.toInt f.operator.op.symbol)

variable {g : Globals}

namespace Tree

/-- The postfix form. -/
def spell : Tree g → List Token
  | operand leaf => [leaf.token]
  | operation left right o => left.spell ++ right.spell ++ [o.token]

/-- The value, from the leaves up. -/
def value? : Tree g → Option Int64
  | operand leaf => some leaf.value
  | operation left right o => left.value?.bind fun a => right.value?.bind fun b => o.op.fold a b

/-- The operators whose operands have values on which they have none, in the order of the text. -/
def failures : Tree g → List Failure
  | operand _ => []
  | operation left right o =>
      left.failures ++ right.failures ++
        match left.value?, right.value? with
        | some a, some b => if (o.op.fold a b).isNone then [⟨o, a, b⟩] else []
        | _, _ => []

theorem value?_operation {left right : Tree g} {o : Operator} {v : Int64} :
    (operation left right o).value? = some v
      ↔ ∃ a b, left.value? = some a ∧ right.value? = some b ∧ o.op.fold a b = some v := by
  simp [value?, Option.bind_eq_some_iff]

theorem failures_eq_nil_iff (t : Tree g) : t.failures = [] ↔ ∃ v, t.value? = some v := by
  induction t with
  | operand leaf => simp [failures, value?]
  | operation left right o left_ih right_ih =>
    simp only [failures, List.append_eq_nil_iff, left_ih, right_ih, value?_operation]
    constructor
    · rintro ⟨⟨⟨a, left⟩, b, right⟩, own⟩
      cases folded : o.op.fold a b with
      | none => simp [left, right, folded] at own
      | some v => exact ⟨v, a, b, left, right, folded⟩
    · rintro ⟨v, a, b, left, right, folded⟩
      exact ⟨⟨⟨a, left⟩, b, right⟩, by simp [left, right, folded]⟩

end Tree

/-! ## Evaluating a postfix form -/

theorem operand?_eq_some {t : Token} {v : Int64} :
    operand? g t = some v
      ↔ t.kind = .int v ∨ t.kind = .word ∧ valueOf g t.lexeme t.place = .ok v := by
  cases kind : t.kind with
  | int value => simp [operand?, kind]
  | word =>
    cases found : g.find? t.lexeme with
    | none => simp [operand?, valueOf, kind, found]
    | some meaning => cases meaning <;> simp [operand?, valueOf, kind, found]
  | _ => simp [operand?, kind]

theorem exists_of_valueOf {name : String} {place : Place} {v : Int64}
    (valued : valueOf g name place = .ok v) : ∃ meaning, g.find? name = some meaning := by
  obtain found | ⟨r, found, -⟩ := valueOf_eq_ok.1 valued
  · exact ⟨_, found⟩
  · exact ⟨_, found⟩

theorem step_operand (free : g.Unreserved) (leaf : Operand g) (stack : List Int64) :
    step g stack leaf.token = .ok (leaf.value :: stack) := by
  rcases operand?_eq_some.1 leaf.stands with kind | ⟨kind, valued⟩
  · simp only [step, kind]
  · obtain ⟨meaning, found⟩ := exists_of_valueOf valued
    simp only [step, kind, free.ofSymbol?_eq_none found, valued]

theorem step_operator (o : Operator) (stack : List Int64) :
    step g stack o.token = apply o.op o.token.place stack := by
  simp only [step, o.word, o.spells, Binary.ofSymbol?_symbol]

/-- The postfix form of a tree leaves the value of the tree on the stack. -/
theorem Tree.run_spell (free : g.Unreserved) {t : Tree g} {v : Int64} (value : t.value? = some v)
    (stack : List Int64) (rest : List Token) :
    run g stack (t.spell ++ rest) = run g (v :: stack) rest := by
  induction t generalizing v stack rest with
  | operand leaf =>
    cases value
    simp only [spell, List.singleton_append, run, step_operand free]
  | operation left right o left_ih right_ih =>
    obtain ⟨a, b, left, right, folded⟩ := value?_operation.1 value
    simp only [spell, List.append_assoc, left_ih left, right_ih right, List.singleton_append, run,
      step_operator, apply, folded]

/-- The postfix form of a tree without a value stops at the first operator without one. -/
theorem Tree.run_failing (free : g.Unreserved) {t : Tree g} {f : Failure} {more : List Failure}
    (fails : t.failures = f :: more) (stack : List Int64) (rest : List Token) :
    run g stack (t.spell ++ rest) = .error f.diagnostic := by
  induction t generalizing more stack rest with
  | operand leaf => cases fails
  | operation left right o left_ih right_ih =>
    rw [failures, List.append_assoc] at fails
    rw [spell, List.append_assoc, List.append_assoc]
    -- The first failure is the first on the left, else the first on the right, else the operator.
    rcases List.append_eq_cons_iff.1 fails with ⟨none, fails⟩ | ⟨_, here, -⟩
    · obtain ⟨a, left_value⟩ := left.failures_eq_nil_iff.1 none
      rw [run_spell free left_value]
      rcases List.append_eq_cons_iff.1 fails with ⟨none, own⟩ | ⟨_, here, -⟩
      · obtain ⟨b, right_value⟩ := right.failures_eq_nil_iff.1 none
        rw [left_value, right_value] at own
        simp only at own
        split at own
        · rename_i folded
          cases own
          rw [Option.isNone_iff_eq_none] at folded
          rw [run_spell free right_value]
          simp only [List.singleton_append, run, step_operator, apply, folded, Failure.diagnostic]
        · cases own
      · exact right_ih here _ _
    · exact left_ih here _ _

/-! ## Reading a tree back -/

/-- The values of trees that were read one after the other, the latest first. -/
inductive Held (g : Globals) : List Int64 → List Token → Prop where
  | nil : Held g [] []
  | push {v : Int64} {below : List Int64} {before : List Token} (held : Held g below before)
      (t : Tree g) (value : t.value? = some v) : Held g (v :: below) (before ++ t.spell)

theorem held_step {stack next : List Int64} {before : List Token} {t : Token}
    (held : Held g stack before) (ok : step g stack t = .ok next) :
    Held g next (before ++ [t]) := by
  have leaf : ∀ {value}, operand? g t = some value → Held g (value :: stack) (before ++ [t]) :=
    fun stands => held.push (.operand ⟨t, _, stands⟩) rfl
  obtain ⟨value, kind, rfl⟩ | ⟨kind, op, symbol, applied⟩ | ⟨kind, -, value, valued, rfl⟩ :=
    step_eq_ok.1 ok
  · exact leaf (operand?_eq_some.2 (.inl kind))
  · obtain ⟨b, a, below, value, rfl, folded, rfl⟩ := apply_eq_ok.1 applied
    -- The two latest trees become the operands of a new one.
    obtain _ | @⟨_, _, _, held, right, right_value⟩ := held
    obtain _ | @⟨_, _, _, held, left, left_value⟩ := held
    have whole : (Tree.operation left right
        ⟨t, op, kind, (Binary.symbol_of_ofSymbol? symbol).symm⟩).value? = some value :=
      Tree.value?_operation.2 ⟨a, b, left_value, right_value, folded⟩
    simpa [Tree.spell] using held.push _ whole
  · exact leaf (operand?_eq_some.2 (.inr ⟨kind, valued⟩))

/-- Whatever evaluation leaves on the stack are the values of trees. -/
theorem held_run {stack out : List Int64} {before tokens : List Token} (held : Held g stack before)
    (ok : run g stack tokens = .ok out) : Held g out (before ++ tokens) := by
  induction tokens generalizing stack before with
  | nil =>
    cases ok
    rwa [List.append_nil]
  | cons t tokens ih =>
    rw [run] at ok
    split at ok
    · rename_i next here
      rw [List.append_cons]
      exact ih (held_step held here) ok
    · cases ok

theorem exists_tree_of_eval {name : Token} {tokens : List Token} {v : Int64}
    (ok : eval g name tokens = .ok v) : ∃ t : Tree g, t.spell = tokens := by
  have held : Held g [v] ([] ++ tokens) := held_run .nil (eval_eq_ok.1 ok)
  rw [List.nil_append] at held
  obtain _ | @⟨_, _, _, none, t, -⟩ := held
  cases none
  exact ⟨t, rfl⟩

/-! ## One tree for each text -/

theorem Operand.ext_token {x y : Operand g} (same : x.token = y.token) : x = y := by
  obtain ⟨token, v, left⟩ := x
  obtain ⟨_, w, right⟩ := y
  obtain rfl : token = _ := same
  obtain rfl : v = w := Option.some.inj (left ▸ right)
  rfl

theorem Operator.ext_token {x y : Operator} (same : x.token = y.token) : x = y := by
  obtain ⟨token, op, kind, left⟩ := x
  obtain ⟨_, op', _, right⟩ := y
  obtain rfl : token = _ := same
  have symbols : Binary.ofSymbol? op.symbol = Binary.ofSymbol? op'.symbol := by rw [← left, right]
  rw [Binary.ofSymbol?_symbol, Binary.ofSymbol?_symbol] at symbols
  obtain rfl := Option.some.inj symbols
  rfl

theorem Operand.token_ne (free : g.Unreserved) (x : Operand g) (o : Operator) :
    x.token ≠ o.token := by
  intro same
  have pushed := step_operand free x []
  rw [same, step_operator] at pushed
  cases pushed

/-- A postfix form at the end of a text is the form of one tree and starts at one point. -/
theorem Tree.spell_append_inj (free : g.Unreserved) {t u : Tree g} {before other : List Token}
    (same : before ++ t.spell = other ++ u.spell) : before = other ∧ t = u := by
  induction t generalizing u before other with
  | operand leaf =>
    cases u with
    | operand leaf' =>
      obtain ⟨front, last⟩ := List.append_inj' same rfl
      exact ⟨front, congrArg _ (Operand.ext_token (List.singleton_inj.1 last))⟩
    | operation left right o =>
      rw [spell, spell, ← List.append_assoc] at same
      exact absurd (List.singleton_inj.1 (List.append_inj' same rfl).2) (leaf.token_ne free o)
  | operation left right o left_ih right_ih =>
    cases u with
    | operand leaf =>
      rw [spell, spell, ← List.append_assoc] at same
      exact absurd (List.singleton_inj.1 (List.append_inj' same rfl).2).symm (leaf.token_ne free o)
    | operation left' right' o' =>
      simp only [spell, ← List.append_assoc] at same
      obtain ⟨operands, last⟩ := List.append_inj' same rfl
      obtain ⟨first, rfl⟩ := right_ih operands
      obtain ⟨rfl, rfl⟩ := left_ih first
      obtain rfl := Operator.ext_token (List.singleton_inj.1 last)
      exact ⟨rfl, rfl⟩

/-- **Constant expressions are exactly the postfix forms of trees.** In every scope that the first
reading comes to, the postfix form of a tree evaluates to the value of the tree; it is refused at
the first operator without a value if there is one, which is so just if the tree has no value; and a
text that evaluates is the postfix form of one tree. -/
theorem eval_trees {limits : Limits} {before : List Token} {s : Survey}
    (reached : (Survey.start limits).run before = .ok s) (name : Token) :
    (∀ t : Tree s.globals,
      (∀ v, t.value? = some v → eval s.globals name t.spell = .ok v)
      ∧ (∀ f more, t.failures = f :: more → eval s.globals name t.spell = .error f.diagnostic)
      ∧ (t.failures = [] ↔ ∃ v, t.value? = some v))
    ∧ ∀ tokens v, eval s.globals name tokens = .ok v → ∃! t : Tree s.globals, t.spell = tokens := by
  have free := Survey.unreserved_run reached
  refine ⟨fun t => ⟨fun v value => ?_, fun f more fails => ?_, t.failures_eq_nil_iff⟩, ?_⟩
  · have whole := Tree.run_spell free value [] []
    rw [List.append_nil] at whole
    rw [eval, whole]
    rfl
  · have whole := Tree.run_failing free fails [] []
    rw [List.append_nil] at whole
    rw [eval, whole]
  · intro tokens v ok
    obtain ⟨t, rfl⟩ := exists_tree_of_eval ok
    refine ⟨t, rfl, fun u same => ?_⟩
    exact (Tree.spell_append_inj free (congrArg ([] ++ ·) same)).2

/-- The scope after `const N 4 ;`. -/
def scopeOfFour : Survey :=
  ⟨⟨⟨"N", .constant 4, ⟨1, 7, "t"⟩⟩ :: Globals.initial.entries⟩, .ofLimits {}, [], .between⟩

/-- With `N` for 4, `N str * 1 +` is 65, and `N N N - / N 9223372036854775807 + +` is refused at the
division although the sum after it has no value either. -/
theorem eval_trees_four :
    let word (text : String) (column : Nat) : Token := ⟨.word, text, ⟨2, column, "t"⟩⟩
    eval scopeOfFour.globals (word "X" 7)
        [word "N" 9, word "str" 11, word "*" 15, ⟨.int 1, "1", ⟨2, 17, "t"⟩⟩, word "+" 19] = .ok 65
    ∧ eval scopeOfFour.globals (word "X" 7)
        [word "N" 9, word "N" 11, word "N" 13, word "-" 15, word "/" 17, word "N" 19,
          ⟨.int Int64.maxValue, "9223372036854775807", ⟨2, 21, "t"⟩⟩, word "+" 41, word "+" 43]
      = .error (.malformed ⟨2, 17, "t"⟩ (.noValue 4 0 "/")) := by
  intro word
  have reached : (Survey.start {}).run
      [⟨.keyword .constant, "const", ⟨1, 1, "t"⟩⟩, ⟨.word, "N", ⟨1, 7, "t"⟩⟩,
        ⟨.int 4, "4", ⟨1, 9, "t"⟩⟩, ⟨.keyword .semicolon, ";", ⟨1, 11, "t"⟩⟩]
      = .ok scopeOfFour := rfl
  let four (column : Nat) : Tree scopeOfFour.globals := .operand ⟨word "N" column, 4, rfl⟩
  let size : Tree scopeOfFour.globals :=
    .operation
      (.operation (four 9) (.operand ⟨word "str" 11, 16, rfl⟩) ⟨word "*" 15, .mul, rfl, rfl⟩)
      (.operand ⟨⟨.int 1, "1", ⟨2, 17, "t"⟩⟩, 1, rfl⟩) ⟨word "+" 19, .add, rfl, rfl⟩
  let quotient : Tree scopeOfFour.globals :=
    .operation (four 9) (.operation (four 11) (four 13) ⟨word "-" 15, .sub, rfl, rfl⟩)
      ⟨word "/" 17, .div, rfl, rfl⟩
  let sum : Tree scopeOfFour.globals :=
    .operation (four 19)
      (.operand ⟨⟨.int Int64.maxValue, "9223372036854775807", ⟨2, 21, "t"⟩⟩, Int64.maxValue, rfl⟩)
      ⟨word "+" 41, .add, rfl, rfl⟩
  have bytes : Binary.mul.fold 4 16 = some 64 := by decide
  have more : Binary.add.fold 64 1 = some 65 := by decide
  have difference : Binary.sub.fold 4 4 = some 0 := by decide
  have byZero : Binary.div.fold 4 0 = none := by decide
  have overflow : Binary.add.fold 4 Int64.maxValue = none := by decide
  have fails : (Tree.operation quotient sum ⟨word "+" 43, .add, rfl, rfl⟩).failures
      = [⟨⟨word "/" 17, .div, rfl, rfl⟩, 4, 0⟩,
        ⟨⟨word "+" 41, .add, rfl, rfl⟩, 4, Int64.maxValue⟩] := by
    simp [quotient, sum, four, Tree.failures, Tree.value?, difference, byZero, overflow]
  have trees := (eval_trees reached (word "X" 7)).1
  refine ⟨(trees size).1 65 ?_, (trees _).2.1 _ _ fails⟩
  simp [size, four, Tree.value?, bytes, more]

end Constant

end PinnedStack
