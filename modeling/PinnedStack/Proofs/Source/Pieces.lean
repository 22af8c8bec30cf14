import Mathlib.Data.List.Forall2
import PinnedStack.Token.Scan

/-!
# The pieces of a text

* `Place.behind` — the place behind some characters, by the lines and columns they take.
* `Letter`, `Piece` — the letters of a literal, and the words and literals of a text, as written.
* `Piece.Makes` — the token that a piece makes where it stands.
* `Partition` — a text is blanks, comments and pieces in a row, each piece up to a blank or the end.
-/

namespace PinnedStack

/-! ## Places -/

namespace Place

/-- The place behind some characters: a line for each line feed, and a column for each character after
the last one. -/
def behind (file : String) (before : List Char) : Place where
  line := 1 + before.count '\n'
  column := 1 + (before.reverse.takeWhile (· ≠ '\n')).length
  file := file

/-- The place that follows some characters. -/
def past (p : Place) (chars : List Char) : Place := chars.foldl after p

theorem past_append (p : Place) (a b : List Char) : p.past (a ++ b) = (p.past a).past b :=
  List.foldl_append

theorem behind_singleton (file : String) (before : List Char) (c : Char) :
    behind file (before ++ [c]) = (behind file before).after c := by
  unfold behind after
  rw [List.count_append, List.reverse_append]
  by_cases newline : c = '\n'
  · subst newline
    simp [Nat.add_assoc]
  · have counted : List.count '\n' [c] = 0 := List.count_eq_zero.2 (by simpa using Ne.symm newline)
    simp [newline, counted, Nat.add_assoc]

/-- Characters one by one lead to the place behind all of them. -/
theorem behind_append (file : String) (before chars : List Char) :
    behind file (before ++ chars) = (behind file before).past chars := by
  induction chars generalizing before with
  | nil => rw [List.append_nil]; rfl
  | cons c chars ih =>
    show _ = ((behind file before).after c).past chars
    rw [← behind_singleton, ← ih, List.append_assoc, List.singleton_append]

end Place

/-! ## Letters -/

/-- A character of a literal as it is written: by itself, or after a backslash. -/
inductive Letter where
  | plain (c : Char)
  | escaped (c : Char)
deriving DecidableEq

/-- The characters that may follow a backslash, with what they stand for there. -/
def escapes : List (Char × Char) :=
  [('n', '\n'), ('r', '\r'), ('t', '\t'), ('0', '\x00'), ('\\', '\\'), ('"', '"'), ('\'', '\'')]

theorem unescape?_eq_some_iff {c d : Char} : unescape? c = some d ↔ (c, d) ∈ escapes := by
  unfold unescape? escapes
  constructor
  · intro h
    split at h <;> cases h <;> simp
  · intro mem
    simp only [List.mem_cons, Prod.mk.injEq, List.not_mem_nil, or_false] at mem
    rcases mem with ⟨rfl, rfl⟩ | ⟨rfl, rfl⟩ | ⟨rfl, rfl⟩ | ⟨rfl, rfl⟩ | ⟨rfl, rfl⟩ | ⟨rfl, rfl⟩
      | ⟨rfl, rfl⟩ <;> rfl

namespace Letter

def spell : Letter → List Char
  | plain c => [c]
  | escaped c => ['\\', c]

/-- What a letter stands for between quotes of a kind. -/
inductive Means (quote : Char) : Letter → Char → Prop where
  | plain {c : Char} (inside : c ≠ quote) (bare : c ≠ '\\') : Means quote (.plain c) c
  | escaped {c d : Char} (listed : (c, d) ∈ escapes) : Means quote (.escaped c) d

end Letter

/-! ## Pieces -/

/-- What stands in front of the letters of a literal. -/
def Literal.opening : Literal → List Char
  | str => ['"']
  | cstr => ['c', '"']
  | char => ['\'']

inductive Piece where
  | word (chars : List Char)
  | literal (form : Literal) (letters : List Letter)
deriving DecidableEq

def Piece.spell : Piece → List Char
  | word chars => chars
  | literal form letters => form.opening ++ letters.flatMap Letter.spell ++ [form.quote]

/-- How a literal or a comment begins. -/
def openings : List (List Char) := [['"'], ['\''], ['c', '"'], ['/', '/']]

/-- The kind of a word: a keyword, a numeral that has a value, or a name. -/
inductive Token.Kind.OfWord (chars : List Char) : Token.Kind → Prop where
  | keyword {k : Keyword} (spelled : k.text.toList = chars) : OfWord chars (.keyword k)
  | numeral {value : Int64} (other : ∀ k : Keyword, k.text.toList ≠ chars)
      (looks : Numeral.looksNumeric chars = true) (fits : Numeral.value? chars = some value) :
      OfWord chars (.int value)
  | name (other : ∀ k : Keyword, k.text.toList ≠ chars)
      (looks : Numeral.looksNumeric chars = false) : OfWord chars .word

/-- The token that a piece makes at a place. A word keeps its spelling, and a character literal is
the number of its one byte. -/
inductive Piece.Makes (place : Place) : Piece → Token → Prop where
  | word {chars : List Char} {kind : Token.Kind} (any : chars ≠ [])
      (solid : ∀ c ∈ chars, isBlank c = false) (begins : ∀ o ∈ openings, ¬ o <+: chars)
      (classified : Token.Kind.OfWord chars kind) :
      Makes place (.word chars) ⟨kind, String.ofList chars, place⟩
  | str {letters : List Letter} {text : List Char}
      (means : List.Forall₂ (Letter.Means '"') letters text) :
      Makes place (.literal .str letters)
        ⟨.str (String.ofList text), s!"\"{String.ofList text}\"", place⟩
  | cstr {letters : List Letter} {text : List Char}
      (means : List.Forall₂ (Letter.Means '"') letters text) :
      Makes place (.literal .cstr letters)
        ⟨.cstr (String.ofList text), s!"c\"{String.ofList text}\"", place⟩
  | char {letters : List Letter} {text : List Char} {byte : UInt8}
      (means : List.Forall₂ (Letter.Means '\'') letters text)
      (one : utf8Bytes (String.ofList text) = [byte]) :
      Makes place (.literal .char letters)
        ⟨.int (Int64.ofNat byte.toNat), s!"'{String.ofList text}'", place⟩

/-- A text behind some characters is made of blanks, comments and pieces. A comment goes to the end of
its line or of the text, and a piece ends in front of a blank or at the end of the text. -/
inductive Partition (file : String) :
    List Char → List Char → List Piece → List Token → Prop where
  | stop {before : List Char} : Partition file before [] [] []
  | blank {before rest : List Char} {c : Char} {pieces : List Piece} {tokens : List Token}
      (blank : isBlank c = true) (others : Partition file (before ++ [c]) rest pieces tokens) :
      Partition file before (c :: rest) pieces tokens
  | comment {before text rest : List Char} {pieces : List Piece} {tokens : List Token}
      (inside : '\n' ∉ text)
      (others : Partition file (before ++ '/' :: '/' :: text ++ ['\n']) rest pieces tokens) :
      Partition file before ('/' :: '/' :: text ++ '\n' :: rest) pieces tokens
  | lastComment {before text : List Char} (inside : '\n' ∉ text) :
      Partition file before ('/' :: '/' :: text) [] []
  | piece {before rest : List Char} {p : Piece} {t : Token} {pieces : List Piece}
      {tokens : List Token} (makes : p.Makes (.behind file before) t)
      (apart : ∀ c ∈ rest.head?, isBlank c = true)
      (others : Partition file (before ++ p.spell) rest pieces tokens) :
      Partition file before (p.spell ++ rest) (p :: pieces) (t :: tokens)

/-! ## Words and literals -/

/-- A word that is not refused is of the kind that it looks like. -/
theorem Token.Kind.ofWord_eq_ok_iff {chars : List Char} {place : Place} {kind : Token.Kind} :
    Token.Kind.ofWord (String.ofList chars) place = .ok kind ↔ Token.Kind.OfWord chars kind := by
  have keyword : ∀ k : Keyword,
      Keyword.ofText? (String.ofList chars) = some k ↔ k.text.toList = chars := by
    intro k
    constructor
    · intro found
      rw [Keyword.text_of_ofText? found, String.toList_ofList]
    · rintro rfl
      rw [String.ofList_toList, Keyword.ofText?_text]
  unfold ofWord
  rw [String.toList_ofList]
  constructor
  · intro ok
    split at ok
    · rename_i k found
      cases ok
      exact .keyword ((keyword k).1 found)
    · rename_i other
      have none : ∀ k : Keyword, k.text.toList ≠ chars := by
        intro k same
        rw [(keyword k).2 same] at other
        cases other
      split at ok
      · rename_i looks
        split at ok
        · rename_i fits
          cases ok
          exact .numeral none looks fits
        · cases ok
      · rename_i looks
        cases ok
        exact .name none (Bool.eq_false_iff.2 looks)
  · intro h
    have absent : (∀ k : Keyword, k.text.toList ≠ chars) →
        Keyword.ofText? (String.ofList chars) = none := by
      intro other
      cases found : Keyword.ofText? (String.ofList chars) with
      | none => rfl
      | some k => exact absurd ((keyword k).1 found) (other k)
    cases h with
    | keyword spelled => simp only [(keyword _).2 spelled]
    | numeral other looks fits => simp only [absent other, looks, fits, if_true]
    | name other looks =>
      rw [absent other, looks]
      rfl

theorem Literal.makes_of_token {form : Literal} {place : Place} {letters : List Letter}
    {text : List Char} {t : Token} (means : List.Forall₂ (Letter.Means form.quote) letters text)
    (ok : form.token place text = .ok t) : (Piece.literal form letters).Makes place t := by
  unfold token at ok
  cases form with
  | str =>
    cases ok
    exact .str means
  | cstr =>
    cases ok
    exact .cstr means
  | char =>
    simp only at ok
    split at ok
    · rename_i byte one
      cases ok
      exact .char means one
    · cases ok

end PinnedStack
