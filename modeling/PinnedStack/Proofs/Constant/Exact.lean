import PinnedStack.Proofs.Machine.Constants

/-!
# Constant arithmetic is exact or refused

* `Fits` — a signed 64-bit word holds the number. `exists_toInt_iff` — it is the value of
  a word then.
* `Binary.wholeResult?` — the arithmetic of whole numbers that an operator stands for.
* `Binary.fold_eq_some_iff` — `fold` gives that word, but for the remainder of the least word by -1.
* `Survey.Applies` — a definition of a text applies an operator to two values.
  `Survey.run_refused` — without a value the reading ends at the operator.
* `Program.arithmetic_exact` — the two together.
-/

namespace PinnedStack

/-! ## Numbers that are words -/

/-- A signed 64-bit word holds the number. -/
def Fits (n : Int) : Prop := -2 ^ 63 ≤ n ∧ n < 2 ^ 63

instance (n : Int) : Decidable (Fits n) := inferInstanceAs (Decidable (_ ∧ _))

theorem fits_toInt (v : Int64) : Fits v.toInt := ⟨Int64.le_toInt v, Int64.toInt_lt v⟩

theorem word?_eq_some_iff {n : Int} {v : Int64} : word? n = some v ↔ v.toInt = n :=
  ⟨toInt_of_word?, fun same => same ▸ word?_toInt v⟩

theorem exists_toInt_iff {n : Int} : (∃ v : Int64, v.toInt = n) ↔ Fits n := by
  constructor
  · rintro ⟨v, rfl⟩
    exact fits_toInt v
  · intro fits
    exact ⟨Int64.ofInt n, Int64.toInt_ofInt_of_le fits.1 fits.2⟩

/-- A quotient is a word, but for that of the least word by -1. -/
theorem fits_tdiv_iff {a b : Int64} (nonzero : b ≠ 0) :
    Fits (a.toInt.tdiv b.toInt) ↔ ¬ (a = Int64.minValue ∧ b = -1) := by
  constructor
  · rintro fits ⟨rfl, rfl⟩
    revert fits
    decide
  · intro other
    rcases not_and_or.1 other with left | right
    · exact Int64.toInt_div_of_ne_left a b left ▸ fits_toInt (a / b)
    · exact Int64.toInt_div_of_ne_right a b right ▸ fits_toInt (a / b)

/-- A word that is shifted to the left is the product with a power of two, cut to a word. -/
theorem toInt_shiftLeft {a b : Int64} (low : 0 ≤ b.toInt) (high : b.toInt < 64) :
    (a <<< b).toInt = (a.toInt * 2 ^ b.toInt.toNat).bmod (2 ^ 64) := by
  have within : shiftDistance? b = some b :=
    if_pos ⟨Int64.le_iff_toInt_le.2 low, Int64.lt_iff_toInt_lt.2 high⟩
  have count : (b.toBitVec.smod 64).toNat = b.toInt.toNat := by
    obtain ⟨-, same, -⟩ := shiftDistance?_eq_some within
    have word := BitVec.toInt_eq_toNat_cond b.toBitVec
    rw [Int64.toInt_toBitVec] at word
    split at word <;> omega
  rw [← Int64.toInt_toBitVec, Int64.toBitVec_shiftLeft, BitVec.shiftLeft_eq', count,
    BitVec.toInt_shiftLeft, Nat.shiftLeft_eq, ← Int64.toInt_toBitVec a,
    BitVec.toInt_eq_toNat_bmod a.toBitVec, Int.bmod_mul_bmod]
  push_cast
  rfl

/-! ## Operators on whole numbers -/

namespace Binary

/-- Is it arithmetic on whole numbers? -/
def isArithmetic : Binary → Bool
  | add | sub | mul | div | mod | shl => true
  | _ => false

/-- The exact result of arithmetic, where it is defined. Quotients and remainders are those of the
division that cuts towards zero, and a shift to the left is the product with a power of two. -/
def wholeResult? : Binary → Int → Int → Option Int
  | add, a, b => some (a + b)
  | sub, a, b => some (a - b)
  | mul, a, b => some (a * b)
  | div, a, b => if b = 0 then none else some (a.tdiv b)
  | mod, a, b => if b = 0 then none else some (a.tmod b)
  | shl, a, b => if 0 ≤ b ∧ b < 64 then some (a * 2 ^ b.toNat) else none
  | _, _, _ => none

/-- The remainder whose quotient is no word: that of the least word by -1. -/
def Unquotable (op : Binary) (a b : Int64) : Prop := op = mod ∧ a = Int64.minValue ∧ b = -1

instance (op : Binary) (a b : Int64) : Decidable (op.Unquotable a b) :=
  inferInstanceAs (Decidable (_ ∧ _))

variable {op : Binary} {a b v : Int64}

theorem fold_div (nonzero : b ≠ 0) : div.fold a b = some v ↔ v.toInt = a.toInt.tdiv b.toInt := by
  rw [fold, if_neg nonzero, word?_eq_some_iff]

theorem fold_mod (nonzero : b ≠ 0) :
    mod.fold a b = some v
      ↔ v.toInt = a.toInt.tmod b.toInt ∧ ¬ (a = Int64.minValue ∧ b = -1) := by
  rw [fold, if_neg nonzero, Option.bind_eq_some_iff, ← fits_tdiv_iff nonzero, ← exists_toInt_iff]
  simp only [word?_eq_some_iff]
  constructor
  · rintro ⟨q, quotient, remainder⟩
    exact ⟨remainder, q, quotient⟩
  · rintro ⟨remainder, q, quotient⟩
    exact ⟨q, quotient, remainder⟩

theorem fold_shl (kept : ∀ n, shl.wholeResult? a.toInt b.toInt = some n → Fits n) :
    shl.fold a b = some v ↔ shl.wholeResult? a.toInt b.toInt = some v.toInt := by
  have range : 0 ≤ b ∧ b < 64 ↔ 0 ≤ b.toInt ∧ b.toInt < 64 :=
    and_congr Int64.le_iff_toInt_le Int64.lt_iff_toInt_lt
  by_cases within : 0 ≤ b.toInt ∧ b.toInt < 64
  · have fits : Fits (a.toInt * 2 ^ b.toInt.toNat) := kept _ (if_pos within)
    have exact : (a <<< b).toInt = a.toInt * 2 ^ b.toInt.toNat := by
      rw [toInt_shiftLeft within.1 within.2]
      exact Int.bmod_eq_of_le (by simpa using fits.1) (by simpa using fits.2)
    rw [fold, shiftDistance?, if_pos (range.2 within), wholeResult?, if_pos within, Option.map_some,
      Option.some_inj, Option.some_inj, ← exact, Int64.toInt_inj]
  · rw [fold, shiftDistance?, if_neg (mt range.1 within), wholeResult?, if_neg within]
    simp

/-- `fold` gives the exact result, but for the remainder of the least word by -1. -/
theorem fold_eq_some_iff (arithmetic : op.isArithmetic = true)
    (kept : op = shl → ∀ n, op.wholeResult? a.toInt b.toInt = some n → Fits n) :
    op.fold a b = some v
      ↔ op.wholeResult? a.toInt b.toInt = some v.toInt ∧ ¬ op.Unquotable a b := by
  have zero : b.toInt = 0 ↔ b = 0 := toInt_eq_zero_iff
  cases op with
  | add | sub | mul =>
    simp only [fold, wholeResult?, word?_eq_some_iff, Unquotable, Option.some_inj, reduceCtorEq,
      false_and, not_false_eq_true, and_true]
    exact eq_comm
  | div =>
    by_cases none : b = 0
    · simp [fold, wholeResult?, none]
    · simp [fold_div none, wholeResult?, zero, none, Unquotable, eq_comm]
  | mod =>
    by_cases none : b = 0
    · simp [fold, wholeResult?, none]
    · simp [fold_mod none, wholeResult?, zero, none, Unquotable, eq_comm]
  | shl => simp [fold_shl (kept rfl), Unquotable]
  | and | or | xor | shr | eq | ne | lt | gt | le | ge => cases arithmetic

end Binary

/-! ## Definitions whose value is refused -/

namespace Survey

/-- Tokens without a `;` are collected for the definition that is open. -/
theorem run_collecting {s : Survey} {plain : Plain} {naming : Naming} {held tokens : List Token}
    (phase : s.phase = .collecting plain naming held)
    (inside : ∀ t ∈ tokens, t.kind ≠ .keyword .semicolon) :
    s.run tokens = .ok { s with phase := .collecting plain naming (tokens.reverse ++ held) } := by
  induction tokens generalizing s held with
  | nil =>
    rw [List.reverse_nil, List.nil_append, ← phase]
    rfl
  | cons t tokens ih =>
    have one : s.step t = .ok { s with phase := .collecting plain naming (t :: held) } := by
      unfold step
      rw [phase]
      split
      · rename_i closes
        exact absurd closes (inside t (List.mem_cons_self ..))
      · rename_i eq _
        cases eq
      · rfl
    rw [run, one]
    simpa using ih rfl fun u mem => inside u (List.mem_cons_of_mem _ mem)

variable {s : Survey} {plain : Plain} {keyword name stop : Token} {tokens rest : List Token}

/-- A plain definition is recorded at its `;`. -/
theorem run_plain (outside : s.phase = .between) (opens : keyword.kind = .keyword plain.keyword)
    (named : name.kind = .word) (inside : ∀ t ∈ tokens, t.kind ≠ .keyword .semicolon)
    (closes : stop.kind = .keyword .semicolon) :
    s.run (keyword :: name :: (tokens ++ stop :: rest)) =
      (Survey.definePlain
        { s with phase := .collecting plain ⟨keyword.place, name⟩ tokens.reverse }
        plain name tokens).bind (·.run rest) := by
  have first : s.step keyword = .ok { s with phase := .naming (.plain plain) keyword.place } := by
    unfold step
    rw [outside]
    cases plain <;> simp [advance, opens, Plain.keyword, Form.ofKeyword?]
  have second : Survey.step { s with phase := .naming (.plain plain) keyword.place } name
      = .ok { s with phase := .collecting plain ⟨keyword.place, name⟩ [] } := by
    simp [step, advance, named]
  rw [run, first]
  simp only [run, second]
  rw [run_append, run_collecting rfl inside, List.append_nil]
  simp only [Except.bind, run, step, closes, List.reverse_reverse]
  cases Survey.definePlain _ plain name tokens with
  | ok next => rfl
  | error d => rfl

/-- A constant or a region without a value is refused as its value is. -/
theorem definePlain_refused {d : Diagnostic} (valued : plain ≠ .record)
    (several : ∀ only, tokens ≠ [only])
    (refused : Constant.eval s.globals name tokens = .error d) :
    s.definePlain plain name tokens = .error d := by
  cases plain with
  | record => exact absurd rfl valued
  | constant => simp only [definePlain, refused]
  | memory =>
    have region : regionOf s.globals name tokens = .error d := by
      unfold regionOf
      split
      · exact absurd rfl (several _)
      · rw [bareRegion, refused]
    simp only [definePlain, region]

end Survey

namespace Constant

/-- An operator without a value ends the evaluation. -/
theorem run_unfolded {g : Globals} {stack below : List Int64} {before after : List Token}
    {operator : Token} {op : Binary} {a b : Int64}
    (values : run g stack before = .ok (b :: a :: below)) (word : operator.kind = .word)
    (spells : operator.lexeme = op.symbol) (none : op.fold a b = none) :
    run g stack (before ++ operator :: after)
      = .error (.malformed operator.place (.noValue a.toInt b.toInt op.symbol)) := by
  have last : step g (b :: a :: below) operator
      = .error (.malformed operator.place (.noValue a.toInt b.toInt op.symbol)) := by
    simp [step, word, spells, Binary.ofSymbol?_symbol, apply, none]
  rw [run_append, values]
  simp only [Except.bind, run, last]

end Constant

/-- The tokens define a constant or a region by an expression that, evaluated from its start,
applies the operator to the two values at the place. -/
inductive Survey.Applies (limits : Limits) (op : Binary) (a b : Int64) :
    List Token → Place → Prop where
  | definition (front before after rest : List Token) (plain : Plain)
      {keyword name operator stop : Token} {s : Survey} {below : List Int64}
      (reached : (Survey.start limits).run front = .ok s) (outside : s.phase = .between)
      (opens : keyword.kind = .keyword plain.keyword) (valued : plain ≠ .record)
      (named : name.kind = .word)
      (values : Constant.run s.globals [] before = .ok (b :: a :: below))
      (word : operator.kind = .word) (spells : operator.lexeme = op.symbol)
      (inside : ∀ t ∈ after, t.kind ≠ .keyword .semicolon)
      (closes : stop.kind = .keyword .semicolon) :
      Applies limits op a b
        (front ++ keyword :: name :: (before ++ operator :: after ++ stop :: rest)) operator.place

/-- A definition that applies an operator without a value ends the first reading at the operator. -/
theorem Survey.run_refused {limits : Limits} {tokens : List Token} {op : Binary} {a b : Int64}
    {place : Place} (applies : Applies limits op a b tokens place) (none : op.fold a b = none) :
    (start limits).run tokens = .error (.malformed place (.noValue a.toInt b.toInt op.symbol)) := by
  cases applies with
  | @definition front before after rest plain keyword name operator stop s below reached outside
      opens valued named values word spells inside closes =>
    have evaluated : Constant.eval s.globals name (before ++ operator :: after)
        = .error (.malformed operator.place (.noValue a.toInt b.toInt op.symbol)) := by
      rw [Constant.eval, Constant.run_unfolded values word spells none]
    -- The two values took tokens of their own, so the expression is no lone name of a record.
    have several : ∀ only, before ++ operator :: after ≠ [only] := by
      intro only one
      cases before with
      | nil => cases values
      | cons t before => simp at one
    have plainly : ∀ t ∈ before ++ operator :: after, t.kind ≠ .keyword .semicolon := by
      intro t mem
      rcases List.mem_append.1 mem with mem | mem
      · obtain ⟨v, kind⟩ | kind := Constant.kind_of_run values t mem
        all_goals simp [kind]
      · rcases List.mem_cons.1 mem with rfl | mem
        · simp [word]
        · exact inside t mem
    have refused : ∀ phase, Survey.definePlain { s with phase := phase } plain name
        (before ++ operator :: after)
          = .error (.malformed operator.place (.noValue a.toInt b.toInt op.symbol)) :=
      fun _ => definePlain_refused valued several evaluated
    rw [run_append, reached]
    simp only [Except.bind]
    rw [run_plain outside opens named plainly closes, refused]
    rfl

/-- **Constant arithmetic is exact or refused.** Let the result of `<<` be a word where it is
defined. Then an arithmetic operator has a value on two words exactly where its exact result is
defined and is a word, unless it is the remainder of the least word by -1, and the value is that
result; everywhere else it has none, and a text whose constant or region needs it there is refused
at the operator. -/
theorem Program.arithmetic_exact {op : Binary} (arithmetic : op.isArithmetic = true) (a b : Int64)
    (kept : op = .shl → ∀ n, op.wholeResult? a.toInt b.toInt = some n → Fits n) :
    (∀ v, op.fold a b = some v
      ↔ op.wholeResult? a.toInt b.toInt = some v.toInt ∧ ¬ op.Unquotable a b)
    ∧ (op.fold a b = none
      ↔ ¬ ∃ n, op.wholeResult? a.toInt b.toInt = some n ∧ Fits n ∧ ¬ op.Unquotable a b)
    ∧ (op.fold a b = none → ∀ limits text place, Survey.Applies limits op a b text.tokens place →
        Program.ofTokens limits text
          = .error (.malformed place (.noValue a.toInt b.toInt op.symbol))) := by
  have exact : ∀ v, op.fold a b = some v
      ↔ op.wholeResult? a.toInt b.toInt = some v.toInt ∧ ¬ op.Unquotable a b :=
    fun _ => Binary.fold_eq_some_iff arithmetic kept
  refine ⟨exact, ?_, fun none limits text place applies => ?_⟩
  · rw [Option.eq_none_iff_forall_ne_some]
    constructor
    · rintro none ⟨n, result, fits, other⟩
      obtain ⟨v, rfl⟩ := exists_toInt_iff.2 fits
      exact none v ((exact v).2 ⟨result, other⟩)
    · intro none v folded
      obtain ⟨result, other⟩ := (exact v).1 folded
      exact none ⟨v.toInt, result, fits_toInt v, other⟩
  · rw [Program.ofTokens, Survey.ofTokens, Survey.run_refused applies none]

/-- The largest shift of one is kept, and a region of twice the largest word is refused. -/
theorem arithmetic_exact_bounds :
    Binary.shl.fold 1 62 = some 4611686018427387904
    ∧ Program.ofTokens {}
        ⟨[⟨.keyword .memory, "memory", ⟨1, 1, "t"⟩⟩, ⟨.word, "m", ⟨1, 8, "t"⟩⟩,
          ⟨.int Int64.maxValue, "9223372036854775807", ⟨1, 10, "t"⟩⟩, ⟨.int 2, "2", ⟨1, 30, "t"⟩⟩,
          ⟨.word, "*", ⟨1, 32, "t"⟩⟩, ⟨.keyword .semicolon, ";", ⟨1, 34, "t"⟩⟩], ⟨1, 35, "t"⟩⟩
      = .error (.malformed ⟨1, 32, "t"⟩ (.noValue 9223372036854775807 2 "*")) := by
  have kept : ∀ n, Binary.shl.wholeResult? (1 : Int64).toInt (62 : Int64).toInt = some n →
      Fits n := by
    intro n result
    cases result
    decide
  have shifted := Program.arithmetic_exact (rfl : Binary.shl.isArithmetic = true) 1 62 fun _ => kept
  have doubled :=
    Program.arithmetic_exact (rfl : Binary.mul.isArithmetic = true) Int64.maxValue 2 nofun
  exact ⟨(shifted.1 _).2 (by decide), doubled.2.2 (by decide) _ _ _
    (.definition [] [_, _] [] [] .memory rfl rfl rfl nofun rfl rfl rfl rfl nofun rfl)⟩

/-- The remainder of the least word by -1 is zero and refused, and the bit that a shift moves out of
the word is lost. -/
theorem arithmetic_inexact :
    (Binary.mod.wholeResult? Int64.minValue.toInt (-1 : Int64).toInt = some 0 ∧ Fits 0
      ∧ Binary.mod.fold Int64.minValue (-1) = none)
    ∧ (Binary.shl.wholeResult? (1 : Int64).toInt (63 : Int64).toInt = some (2 ^ 63)
      ∧ ¬ Fits (2 ^ 63) ∧ Binary.shl.fold 1 63 = some Int64.minValue) := by
  decide

end PinnedStack
