import Mathlib.Data.Nat.Digits.Defs
import PinnedStack.Proofs.Constant.Exact
import PinnedStack.Proofs.Source.Pieces

/-!
# Integer literals are recognised exactly

* `Numeral.Digits` — digits of a radix in a row, with the number that they stand for.
* `Numeral.Spelling` — an optional `-`, then decimal digits or `0x` and hexadecimal digits.
* `Numeral.Resigned` — the same with one more sign after the `0x`.
* `Numeral.whole?_eq_some_iff` — these two are read, and nothing else.
* `Numeral.fitsWide_neg` — without that second sign, no magnitude of 128 bits overflows when it is
  negated.
* `Token.Kind.integer_literals` — words that look numeric and their values.
-/

namespace PinnedStack

namespace Numeral

/-! ## Digits -/

/-- A character is a digit of a radix, in either case. -/
def IsDigit (radix : Nat) (c : Char) (d : Nat) : Prop :=
  d < radix ∧ (c = d.digitChar ∨ c = d.digitChar.toUpper)

instance (radix : Nat) (c : Char) (d : Nat) : Decidable (IsDigit radix c d) :=
  inferInstanceAs (Decidable (_ ∧ _))

/-- Digits in a row, the highest first, and their number. -/
inductive Digits (radix : Nat) : List Char → Nat → Prop where
  | row {cs : List Char} {ds : List Nat} (any : cs ≠ [])
      (each : List.Forall₂ (IsDigit radix) cs ds) : Digits radix cs (Nat.ofDigits radix ds.reverse)

variable {radix : Nat}

theorem digit?_of_isDigit (known : radix = 10 ∨ radix = 16) {c : Char} {d : Nat}
    (digit : IsDigit radix c d) : digit? radix c = some d := by
  obtain ⟨lt, spelled⟩ := digit
  have each : ∀ d < radix, digit? radix d.digitChar = some d
      ∧ digit? radix d.digitChar.toUpper = some d := by
    rcases known with rfl | rfl <;> decide
  rcases spelled with rfl | rfl
  · exact (each d lt).1
  · exact (each d lt).2

theorem isDigit_of_digit? {c : Char} {d : Nat} (found : digit? radix c = some d) :
    IsDigit radix c d := by
  have ascii : ∀ {low : Char} {k : Nat}, low ≤ c → k = c.toNat - low.toNat →
      c = Char.ofNat (low.toNat + k) := by
    intro low k le same
    have le' : low.toNat ≤ c.toNat := le
    rw [same, Nat.add_sub_cancel' le', Char.ofNat_toNat]
  have digits : ∀ k < 10, Char.ofNat ('0'.toNat + k) = k.digitChar := by decide
  have lower : ∀ k < 6, Char.ofNat ('a'.toNat + k) = (k + 10).digitChar := by decide
  have upper : ∀ k < 6, Char.ofNat ('A'.toNat + k) = (k + 10).digitChar.toUpper := by decide
  simp only [digit?, Option.ite_none_right_eq_some, Option.some_inj] at found
  obtain ⟨lt, same⟩ := found
  rw [same] at lt
  refine ⟨lt, ?_⟩
  split at same
  · rename_i range
    have bound : c.toNat ≤ '9'.toNat := range.2
    have zero : '0'.toNat = 48 := rfl
    have nine : '9'.toNat = 57 := rfl
    rw [← digits d (by omega)]
    exact .inl (ascii range.1 same.symm)
  · split at same
    · rename_i range
      have bound : c.toNat ≤ 'f'.toNat := range.2
      have a : 'a'.toNat = 97 := rfl
      have f : 'f'.toNat = 102 := rfl
      subst same
      rw [← lower _ (by omega)]
      exact .inl (ascii range.1 rfl)
    · split at same
      · rename_i range
        have bound : c.toNat ≤ 'F'.toNat := range.2
        have a : 'A'.toNat = 65 := rfl
        have f : 'F'.toNat = 70 := rfl
        subst same
        rw [← upper _ (by omega)]
        exact .inr (ascii range.1 rfl)
      · exact absurd same (by omega)

theorem digits?_eq_some_iff (known : radix = 10 ∨ radix = 16) {cs : List Char} {soFar n : Nat} :
    digits? radix soFar cs = some n ↔ ∃ ds, List.Forall₂ (IsDigit radix) cs ds
      ∧ n = soFar * radix ^ ds.length + Nat.ofDigits radix ds.reverse := by
  induction cs generalizing soFar with
  | nil => simp [digits?, eq_comm]
  | cons c cs ih =>
    have shift : ∀ (d : Nat) (ds : List Nat),
        soFar * radix ^ (d :: ds).length + Nat.ofDigits radix (d :: ds).reverse
          = (soFar * radix + d) * radix ^ ds.length + Nat.ofDigits radix ds.reverse := by
      intro d ds
      rw [List.reverse_cons, Nat.ofDigits_append, Nat.ofDigits_singleton, List.length_reverse,
        List.length_cons]
      ring
    constructor
    · intro read
      rw [digits?] at read
      split at read
      · rename_i d digit
        obtain ⟨ds, each, rfl⟩ := ih.1 read
        exact ⟨d :: ds, .cons (isDigit_of_digit? digit) each, (shift d ds).symm⟩
      · cases read
    · rintro ⟨_, each, rfl⟩
      cases each with
      | @cons _ d _ ds digit each =>
        rw [digits?, digit?_of_isDigit known digit]
        exact ih.2 ⟨ds, each, shift d ds⟩

theorem unsigned?_eq_some_iff (known : radix = 10 ∨ radix = 16) {cs : List Char} {n : Nat} :
    unsigned? radix cs = some n ↔ Digits radix cs n := by
  cases cs with
  | nil => exact ⟨nofun, fun ⟨any, _⟩ => absurd rfl any⟩
  | cons c cs =>
    rw [unsigned?, digits?_eq_some_iff known]
    · constructor
      · rintro ⟨ds, each, rfl⟩
        rw [Nat.zero_mul, Nat.zero_add]
        exact .row (by simp) each
      · rintro ⟨-, each⟩
        exact ⟨_, each, by rw [Nat.zero_mul, Nat.zero_add]⟩
    · nofun

theorem Digits.head_alphanum {c : Char} {cs : List Char} {n : Nat}
    (known : radix = 10 ∨ radix = 16) (digits : Digits radix (c :: cs) n) :
    c ∉ ['-', '+', 'x', 'X'] := by
  cases digits with
  | row any each =>
    cases each with
    | cons digit each =>
      have found := digit?_of_isDigit known digit
      intro mem
      have none : (['-', '+', 'x', 'X'].all fun c => (digit? radix c).isNone) = true := by
        rcases known with rfl | rfl <;> decide
      rw [Option.isNone_iff_eq_none.1 (List.all_eq_true.1 none c mem)] at found
      cases found

/-! ## Spellings -/

/-- A number with no sign: decimal digits, or `0x` and hexadecimal digits. -/
inductive Unsigned : List Char → Int → Prop where
  | decimal {cs : List Char} {n : Nat} (digits : Digits 10 cs n) : Unsigned cs n
  | hexadecimal {x : Char} {cs : List Char} {n : Nat} (mark : x = 'x' ∨ x = 'X')
      (digits : Digits 16 cs n) : Unsigned ('0' :: x :: cs) n

/-- A sign between `0x` and hexadecimal digits. -/
inductive SignInside : List Char → Int → Prop where
  | plus {x : Char} {cs : List Char} {n : Nat} (mark : x = 'x' ∨ x = 'X')
      (digits : Digits 16 cs n) : SignInside ('0' :: x :: '+' :: cs) n
  | minus {x : Char} {cs : List Char} {n : Nat} (mark : x = 'x' ∨ x = 'X')
      (digits : Digits 16 cs n) : SignInside ('0' :: x :: '-' :: cs) (-n)

/-- A body behind an optional `-`. -/
inductive Signed (Body : List Char → Int → Prop) : List Char → Int → Prop where
  | plain {cs : List Char} {n : Int} (body : Body cs n) : Signed Body cs n
  | negative {cs : List Char} {n : Int} (body : Body cs n) : Signed Body ('-' :: cs) (-n)

/-- The documented spellings of a number. -/
abbrev Spelling : List Char → Int → Prop := Signed Unsigned

/-- The spellings with a second sign, after the `0x`. -/
abbrev Resigned : List Char → Int → Prop := Signed SignInside

variable {cs : List Char} {n : Int}

/-- Digits behind an optional sign. -/
theorem signed?_eq_some_iff (known : radix = 10 ∨ radix = 16) :
    signed? radix cs = some n ↔ (∃ m : Nat, Digits radix cs m ∧ (m : Int) = n)
      ∨ (∃ (rest : List Char) (m : Nat), cs = '+' :: rest ∧ Digits radix rest m ∧ (m : Int) = n)
      ∨ ∃ (rest : List Char) (m : Nat), cs = '-' :: rest ∧ Digits radix rest m ∧ -(m : Int) = n := by
  have signless : ∀ {rest : List Char} {m : Nat},
      ¬ Digits radix ('-' :: rest) m ∧ ¬ Digits radix ('+' :: rest) m :=
    ⟨fun digits => digits.head_alphanum known (by simp),
      fun digits => digits.head_alphanum known (by simp)⟩
  fun_cases signed? radix cs with
  | case1 rest => simp [Option.bind_eq_some_iff, unsigned?_eq_some_iff known, signless]
  | case2 rest => simp [unsigned?_eq_some_iff known, signless]
  | case3 _ noMinus noPlus =>
    have other : ∀ rest, cs ≠ '+' :: rest ∧ cs ≠ '-' :: rest := fun rest => ⟨noPlus rest, noMinus rest⟩
    simp [unsigned?_eq_some_iff known, other]

theorem unsigned_hexadecimal_iff {x : Char} (mark : x = 'x' ∨ x = 'X') :
    Unsigned ('0' :: x :: cs) n ↔ ∃ m : Nat, Digits 16 cs m ∧ (m : Int) = n := by
  constructor
  · intro body
    cases body with
    | decimal digits =>
      cases digits with
      | row _ each =>
        cases each with
        | cons _ each =>
          cases each with
          | cons digit _ =>
            have found := digit?_of_isDigit (.inl rfl) digit
            rcases mark with rfl | rfl <;> cases found
    | hexadecimal _ digits => exact ⟨_, digits, rfl⟩
  · rintro ⟨m, digits, rfl⟩
    exact .hexadecimal mark digits

theorem signInside_iff {x : Char} (mark : x = 'x' ∨ x = 'X') :
    SignInside ('0' :: x :: cs) n
      ↔ (∃ (rest : List Char) (m : Nat), cs = '+' :: rest ∧ Digits 16 rest m ∧ (m : Int) = n)
        ∨ ∃ (rest : List Char) (m : Nat), cs = '-' :: rest ∧ Digits 16 rest m ∧ -(m : Int) = n := by
  constructor
  · intro body
    cases body with
    | plus _ digits => exact .inl ⟨_, _, rfl, digits, rfl⟩
    | minus _ digits => exact .inr ⟨_, _, rfl, digits, rfl⟩
  · rintro (⟨rest, m, rfl, digits, rfl⟩ | ⟨rest, m, rfl, digits, rfl⟩)
    · exact .plus mark digits
    · exact .minus mark digits

/-- A number behind the optional `-` of a word begins with no sign. -/
theorem magnitude?_eq_some_iff (first : ∀ rest, cs ≠ '+' :: rest ∧ cs ≠ '-' :: rest) :
    magnitude? cs = some n ↔ Unsigned cs n ∨ SignInside cs n := by
  have hexadecimal : ∀ {x : Char} {rest : List Char}, x = 'x' ∨ x = 'X' →
      (signed? 16 rest = some n
        ↔ Unsigned ('0' :: x :: rest) n ∨ SignInside ('0' :: x :: rest) n) := fun mark => by
    rw [signed?_eq_some_iff (.inr rfl), unsigned_hexadecimal_iff mark, signInside_iff mark]
  fun_cases magnitude? cs with
  | case1 rest => exact hexadecimal (.inl rfl)
  | case2 rest => exact hexadecimal (.inr rfl)
  | case3 _ noLower noUpper =>
    have unmarked : ∀ {x : Char} {rest : List Char}, x = 'x' ∨ x = 'X' → cs ≠ '0' :: x :: rest := by
      rintro x rest (rfl | rfl)
      · exact noLower rest
      · exact noUpper rest
    simp only [signed?_eq_some_iff (.inl rfl), first, false_and, exists_false, or_false]
    constructor
    · rintro ⟨m, digits, rfl⟩
      exact .inl (.decimal digits)
    · rintro (body | body)
      · cases body with
        | decimal digits => exact ⟨_, digits, rfl⟩
        | hexadecimal mark _ => exact absurd rfl (unmarked mark)
      · cases body with
        | plus mark _ => exact absurd rfl (unmarked mark)
        | minus mark _ => exact absurd rfl (unmarked mark)

/-! ## Words -/

variable {word : List Char}

/-- The number that a word spells, of any size. -/
def whole? : List Char → Option Int
  | '-' :: cs => (magnitude? cs).map (-·)
  | cs => magnitude? cs

theorem value?_eq (word : List Char) : value? word = (whole? word).bind word? := by
  fun_cases value? word with
  | case1 cs =>
    rw [whole?, Option.bind_map]
    rfl
  | case2 _ noMinus =>
    rw [whole?]
    exact noMinus

/-- A word that looks numeric is a body, or a `-` and a body, that begins with no sign. -/
theorem cases_of_looksNumeric (looks : looksNumeric word = true) :
    ∃ body, (∀ rest, body ≠ '+' :: rest ∧ body ≠ '-' :: rest)
      ∧ (word = body ∨ word = '-' :: body) := by
  have bare : ∀ {c : Char} {rest : List Char}, c.isDigit = true →
      ∀ other, c :: rest ≠ '+' :: other ∧ c :: rest ≠ '-' :: other := by
    intro c rest digit other
    constructor <;> rintro ⟨⟩ <;> revert digit <;> decide
  revert looks
  fun_cases looksNumeric word with
  | case1 c rest => exact fun looks => ⟨c :: rest, bare looks, .inr rfl⟩
  | case2 c rest => exact fun looks => ⟨c :: rest, bare looks, .inl rfl⟩
  | case3 => nofun

theorem Signed.negative_iff {Body : List Char → Int → Prop}
    (signless : ∀ {rest : List Char} {m : Int}, ¬ Body ('-' :: rest) m) :
    Signed Body ('-' :: cs) n ↔ Body cs (-n) := by
  constructor
  · intro signed
    cases signed with
    | plain body => exact absurd body signless
    | negative body => rwa [Int.neg_neg]
  · intro body
    exact Int.neg_neg n ▸ .negative body

theorem Signed.plain_iff {Body : List Char → Int → Prop} (first : ∀ rest, cs ≠ '-' :: rest) :
    Signed Body cs n ↔ Body cs n := by
  constructor
  · intro signed
    cases signed with
    | plain body => exact body
    | negative => exact absurd rfl (first _)
  · exact .plain

theorem Unsigned.signless {m : Int} : ¬ Unsigned ('-' :: cs) m := by
  rintro ⟨digits⟩
  exact digits.head_alphanum (.inl rfl) (by simp)

theorem SignInside.signless {m : Int} : ¬ SignInside ('-' :: cs) m := nofun

/-- The words that look numeric and spell a number do so by the documents or with a second sign. -/
theorem whole?_eq_some_iff (looks : looksNumeric word = true) :
    whole? word = some n ↔ Spelling word n ∨ Resigned word n := by
  obtain ⟨body, first, rfl | rfl⟩ := cases_of_looksNumeric looks
  · have noMinus : ∀ rest, word ≠ '-' :: rest := fun rest => (first rest).2
    rw [Spelling, Resigned, Signed.plain_iff noMinus, Signed.plain_iff noMinus,
      ← magnitude?_eq_some_iff first, whole?]
    exact noMinus
  · rw [Spelling, Resigned, Signed.negative_iff Unsigned.signless,
      Signed.negative_iff SignInside.signless, ← magnitude?_eq_some_iff first, whole?, Option.map_eq_some_iff]
    constructor
    · rintro ⟨m, read, rfl⟩
      rwa [Int.neg_neg]
    · exact fun read => ⟨-n, read, Int.neg_neg n⟩

theorem Spelling.not_resigned {m : Int} (spelling : Spelling word n) : ¬ Resigned word m := by
  have apart : ∀ {body : List Char} {n m : Int}, Unsigned body n → ¬ SignInside body m := by
    rintro body n m unsigned inside
    obtain ⟨x, sign, rest, mark, signed, rfl⟩ : ∃ x sign rest, (x = 'x' ∨ x = 'X')
        ∧ sign ∈ ['-', '+', 'x', 'X'] ∧ body = '0' :: x :: sign :: rest := by
      cases inside with
      | plus mark => exact ⟨_, _, _, mark, by simp, rfl⟩
      | minus mark => exact ⟨_, _, _, mark, by simp, rfl⟩
    obtain ⟨_, digits, rfl⟩ := (unsigned_hexadecimal_iff mark).1 unsigned
    exact digits.head_alphanum (.inr rfl) signed
  intro resigned
  cases spelling with
  | plain unsigned =>
    cases resigned with
    | plain inside => exact apart unsigned inside
    | negative => exact Unsigned.signless unsigned
  | negative unsigned =>
    rw [Resigned, Signed.negative_iff SignInside.signless] at resigned
    exact apart unsigned resigned

/-- A signed 128-bit word holds the number. -/
def FitsWide (n : Int) : Prop := -2 ^ 127 ≤ n ∧ n < 2 ^ 127

/-- The negation of a magnitude is no overflow of 128 bits, but for a second sign. -/
theorem fitsWide_neg (looks : looksNumeric ('-' :: cs) = true)
    (once : ∀ m, ¬ Resigned ('-' :: cs) m) (read : magnitude? cs = some n) (fits : FitsWide n) :
    FitsWide (-n) := by
  have spelled : whole? ('-' :: cs) = some (-n) := Option.map_eq_some_iff.2 ⟨n, read, rfl⟩
  have nonneg : 0 ≤ n := by
    rcases (whole?_eq_some_iff looks).1 spelled with spelling | resigned
    · rw [Spelling, Signed.negative_iff Unsigned.signless, Int.neg_neg] at spelling
      cases spelling <;> exact Int.natCast_nonneg _
    · exact absurd resigned (once _)
  obtain ⟨_, high⟩ := fits
  exact ⟨by omega, by omega⟩

end Numeral

/-! ## Kinds of words -/

namespace Token.Kind

variable {word : String}

/-- No keyword looks numeric, so such a word is a number that fits or is refused where it stands. -/
theorem ofWord_of_looksNumeric (looks : Numeral.looksNumeric word.toList = true) (place : Place) :
    ofWord word place = match (Numeral.whole? word.toList).bind word? with
      | some value => .ok (.int value)
      | none => .error (.malformed place (.invalidInteger word)) := by
  have noKeyword : Keyword.ofText? word = none := by
    cases found : Keyword.ofText? word with
    | none => rfl
    | some k =>
      have wordless : ∀ k : Keyword, Numeral.looksNumeric k.text.toList = false := by
        intro k
        cases k <;> decide
      rw [← Keyword.text_of_ofText? found, wordless] at looks
      cases looks
  have read := ofWord.eq_def word place
  simp only [noKeyword, looks, if_true, Numeral.value?_eq] at read
  exact read

/-- **Integer literals are recognised exactly.** Let a word look numeric, and let no second sign stand
between its `0x` and hexadecimal digits. Then it is the integer of a value just if it is spelled as
the documents say and has that value, and it is refused at its place where it is no such spelling or
its number is no word; and if 128 bits hold the magnitude behind a `-`, they hold its negation. With
such a second sign the word is read as well, as the product of the signs and the digits. -/
theorem integer_literals (looks : Numeral.looksNumeric word.toList = true) (place : Place) :
    ((∀ m, ¬ Numeral.Resigned word.toList m) →
      (∀ v, ofWord word place = .ok (.int v) ↔ Numeral.Spelling word.toList v.toInt)
      ∧ (ofWord word place = .error (.malformed place (.invalidInteger word))
        ↔ ¬ ∃ n, Numeral.Spelling word.toList n ∧ Fits n)
      ∧ ∀ cs n, word.toList = '-' :: cs → Numeral.magnitude? cs = some n →
          Numeral.FitsWide n → Numeral.FitsWide (-n))
    ∧ ∀ n, Numeral.Resigned word.toList n →
      (∀ m, ¬ Numeral.Spelling word.toList m)
      ∧ (∀ v, ofWord word place = .ok (.int v) ↔ v.toInt = n)
      ∧ (ofWord word place = .error (.malformed place (.invalidInteger word)) ↔ ¬ Fits n) := by
  have whole : ∀ n, Numeral.whole? word.toList = some n
      ↔ Numeral.Spelling word.toList n ∨ Numeral.Resigned word.toList n :=
    fun n => Numeral.whole?_eq_some_iff looks
  have accepted : ∀ v, ofWord word place = .ok (.int v)
      ↔ Numeral.whole? word.toList = some v.toInt := by
    intro v
    rw [ofWord_of_looksNumeric looks]
    cases Numeral.whole? word.toList with
    | none => simp
    | some n =>
      rw [Option.bind_some, Option.some_inj, eq_comm (a := n), ← word?_eq_some_iff]
      cases word? n <;> simp
  have refused : ofWord word place = .error (.malformed place (.invalidInteger word))
      ↔ ¬ ∃ n, Numeral.whole? word.toList = some n ∧ Fits n := by
    rw [ofWord_of_looksNumeric looks]
    cases Numeral.whole? word.toList with
    | none => simp
    | some n =>
      have fits : Fits n ↔ ∃ v, word? n = some v := by
        simp only [word?_eq_some_iff, exists_toInt_iff]
      simp only [Option.bind_some, Option.some_inj, exists_eq_left', fits]
      cases word? n <;> simp
  constructor
  · intro once
    have documented : ∀ n, Numeral.whole? word.toList = some n
        ↔ Numeral.Spelling word.toList n := fun n => (whole n).trans (or_iff_left (once n))
    refine ⟨fun v => (accepted v).trans (documented _), ?_, fun cs n split read fits => ?_⟩
    · simp only [refused, documented]
    · rw [split] at looks once
      exact Numeral.fitsWide_neg looks once read fits
  · intro n resigned
    have read : Numeral.whole? word.toList = some n := (whole n).2 (.inr resigned)
    refine ⟨fun m spelling => spelling.not_resigned resigned, fun v => ?_, ?_⟩
    · rw [accepted, read, Option.some_inj, eq_comm]
    · simp only [refused, read, Option.some_inj, exists_eq_left']

/-- The least word is a literal, and a number that is followed by a letter is none. -/
theorem integer_literals_least :
    ofWord "-0x8000000000000000" ⟨1, 1, "t"⟩ = .ok (.int Int64.minValue)
    ∧ ofWord "2x" ⟨1, 3, "t"⟩ = .error (.malformed ⟨1, 3, "t"⟩ (.invalidInteger "2x")) := by
  have digits : Numeral.Digits 16 ('8' :: List.replicate 15 '0') (2 ^ 63) :=
    @Numeral.Digits.row 16 _ (8 :: List.replicate 15 0) (by decide) (by simp; decide)
  have least : Numeral.Spelling "-0x8000000000000000".toList Int64.minValue.toInt :=
    Numeral.Signed.negative (Numeral.Unsigned.hexadecimal (.inl rfl) digits)
  have spelled : ∀ n, ¬ Numeral.Spelling "2x".toList n := by
    intro n spelling
    have read := (Numeral.whole?_eq_some_iff (by decide)).2 (.inl spelling)
    cases read
  have other : ∀ n, ¬ Numeral.Resigned "2x".toList n := by
    intro n resigned
    have read := (Numeral.whole?_eq_some_iff (by decide)).2 (.inr resigned)
    cases read
  exact ⟨(((integer_literals (by decide) _).1 fun _ => least.not_resigned).1 _).2 least,
    ((integer_literals (by decide) _).1 other).2.1.2 fun ⟨n, spelling, _⟩ => spelled n spelling⟩

/-- A number behind `0x` may have a sign, of which the documents know nothing. -/
theorem sign_after_prefix :
    Numeral.looksNumeric "0x-1".toList = true ∧ ofWord "0x-1" ⟨1, 1, "t"⟩ = .ok (.int (-1))
    ∧ ∀ n, ¬ Numeral.Spelling "0x-1".toList n := by
  have digits : Numeral.Digits 16 ['1'] 1 :=
    @Numeral.Digits.row 16 _ [1] (by decide) (.cons (by decide) .nil)
  have resigned : Numeral.Resigned "0x-1".toList (-1) := .plain (.minus (.inl rfl) digits)
  exact ⟨by decide, by decide, fun n spelling => spelling.not_resigned resigned⟩

end Token.Kind

end PinnedStack
