import PinnedStack.Proofs.Source.Pieces

/-!
# How a text falls into tokens

* `Scanner.Mode.Opened` — what was read since a token could last begin.
* `Scanner.partition_of_run` — what is read of a text falls into pieces that make the tokens.
* `Scanner.run_of_partition` — every partition of a text into pieces is what is read of it.
* `Scanned.ofText_eq_ok_iff` — both together: nothing is lost, read twice or misplaced.
-/

namespace PinnedStack

/-! ## Reading finds a partition -/

/-- What was read since a token could last begin, by what is being read. -/
inductive Scanner.Mode.Opened (file : String) (before : List Char) :
    List Char → Scanner.Mode → Prop where
  | gap : Opened file before [] .gap
  | comment {text : List Char} (inside : '\n' ∉ text) :
      Opened file before ('/' :: '/' :: text) .comment
  | word {chars : List Char} (any : chars ≠ []) (solid : ∀ c ∈ chars, isBlank c = false)
      (begins : ∀ o ∈ openings, ¬ o <+: chars.reverse) :
      Opened file before chars.reverse (.word (.behind file before) chars)
  | quoted {form : Literal} {past : List Letter} {chars : List Char}
      (means : List.Forall₂ (Letter.Means form.quote) past chars.reverse) :
      Opened file before (form.opening ++ past.flatMap Letter.spell)
        (.quoted form (.behind file before) chars)
  | escape {form : Literal} {past : List Letter} {chars : List Char} {place : Place}
      (means : List.Forall₂ (Letter.Means form.quote) past chars.reverse) :
      Opened file before (form.opening ++ past.flatMap Letter.spell ++ ['\\'])
        (.escape form (.behind file before) chars place)
  | closed {form : Literal} {past : List Letter} {chars : List Char}
      (means : List.Forall₂ (Letter.Means form.quote) past chars.reverse) :
      Opened file before (Piece.literal form past).spell (.closed form (.behind file before) chars)

namespace Scanner

variable {file : String} {before raw : List Char} {s : Scanner} {c : Char}

theorem makes_of_word {chars : List Char} {place : Place} {t : Token} (any : chars ≠ [])
    (solid : ∀ c ∈ chars, isBlank c = false) (begins : ∀ o ∈ openings, ¬ o <+: chars.reverse)
    (ok : Token.ofWord place chars.reverse = .ok t) : (Piece.word chars.reverse).Makes place t := by
  unfold Token.ofWord at ok
  simp only at ok
  split at ok
  · rename_i kind here
    cases ok
    refine .word (by simpa using any) (fun c mem => solid c (List.mem_reverse.1 mem)) begins ?_
    exact Token.Kind.ofWord_eq_ok_iff.1 here
  · cases ok

/-- A word that goes on does not begin like a literal or a comment either, unless its first two
characters do. -/
theorem begins_concat {chars : List Char} (any : chars ≠ [])
    (begins : ∀ o ∈ openings, ¬ o <+: chars.reverse) (cstr : ¬ (chars = ['c'] ∧ c = '"'))
    (comment : ¬ (chars = ['/'] ∧ c = '/')) : ∀ o ∈ openings, ¬ o <+: (c :: chars).reverse := by
  intro o mem starts
  rw [List.reverse_cons] at starts
  rcases List.prefix_concat_iff.1 starts with same | earlier
  · obtain ⟨first, more, rfl⟩ := List.exists_cons_of_ne_nil any
    simp only [openings, List.mem_cons, List.not_mem_nil, or_false] at mem
    rw [List.reverse_cons] at same
    rcases mem with rfl | rfl | rfl | rfl
    · simpa using congrArg List.length same
    · simpa using congrArg List.length same
    · have short : more = [] := by simpa using congrArg List.length same
      subst short
      obtain ⟨rfl, rfl⟩ : 'c' = first ∧ '"' = c := by simpa using same
      exact cstr ⟨rfl, rfl⟩
    · have short : more = [] := by simpa using congrArg List.length same
      subst short
      obtain ⟨rfl, rfl⟩ : '/' = first ∧ '/' = c := by simpa using same
      exact comment ⟨rfl, rfl⟩
  · exact begins o mem earlier

/-- A piece that a blank follows is complete. -/
theorem partition_piece {p : Piece} {t : Token} {rest : List Char} {ps : List Piece}
    {us : List Token} (makes : p.Makes (.behind file before) t) (blank : isBlank c = true)
    (others : Partition file (before ++ (p.spell ++ [c])) rest ps us) :
    Partition file before (p.spell ++ c :: rest) (p :: ps) (t :: us) := by
  refine .piece makes (by simpa using blank) (.blank blank ?_)
  rw [List.append_assoc]
  exact others

/-- The last character belongs to what is being read, or it ends that. -/
theorem read_opened {tokens : List Token} {mode : Mode} (opened : s.mode.Opened file before raw)
    (place : s.place = .behind file (before ++ raw)) (ok : s.read c = .ok (tokens, mode)) :
    (tokens = s.tokens ∧ mode.Opened file before (raw ++ [c]))
      ∨ (mode = .gap ∧ ∃ pieces ts, tokens = ts.reverse ++ s.tokens
        ∧ ∀ {rest ps us}, Partition file (before ++ (raw ++ [c])) rest ps us →
          Partition file before (raw ++ c :: rest) (pieces ++ ps) (ts ++ us)) := by
  obtain ⟨done, old, here⟩ := s
  simp only at opened place ok
  unfold read at ok
  cases opened with
  | gap =>
    rw [List.append_nil] at place
    simp only at ok
    split at ok
    · rename_i blank
      cases ok
      exact .inr ⟨rfl, [], [], rfl, fun others => .blank blank others⟩
    · rename_i solid
      split at ok
      · rename_i quote
        cases ok
        subst quote place
        exact .inl ⟨rfl, @Mode.Opened.quoted file before .str [] [] .nil⟩
      · split at ok
        · rename_i quote
          cases ok
          subst quote place
          exact .inl ⟨rfl, @Mode.Opened.quoted file before .char [] [] .nil⟩
        · rename_i double single
          cases ok
          subst place
          have begins : ∀ o ∈ openings, ¬ o <+: [c] := by
            simp [openings, Ne.symm double, Ne.symm single]
          exact .inl ⟨rfl, @Mode.Opened.word file before [c] (by simp) (by simpa using solid) begins⟩
  | @comment text inside =>
    simp only at ok
    split at ok
    · rename_i newline
      cases ok
      subst newline
      refine .inr ⟨rfl, [], [], rfl, fun others => ?_⟩
      rw [← List.append_assoc] at others
      exact .comment inside others
    · rename_i other
      cases ok
      have longer : '\n' ∉ text ++ [c] := by simpa using ⟨inside, Ne.symm other⟩
      exact .inl ⟨rfl, .comment longer⟩
  | @word chars any solid begins =>
    simp only at ok
    split at ok
    · rename_i blank
      split at ok
      · rename_i t complete
        cases ok
        have makes := makes_of_word any solid begins complete
        exact .inr ⟨rfl, [_], [t], rfl, fun others => partition_piece makes blank others⟩
      · cases ok
    · rename_i other
      split at ok
      · rename_i cstr
        obtain ⟨rfl, rfl⟩ := cstr
        cases ok
        exact .inl ⟨rfl, @Mode.Opened.quoted file before .cstr [] [] .nil⟩
      · rename_i cstr
        split at ok
        · rename_i comment
          obtain ⟨rfl, rfl⟩ := comment
          cases ok
          exact .inl ⟨rfl, .comment List.not_mem_nil⟩
        · rename_i comment
          cases ok
          refine .inl ⟨rfl, ?_⟩
          rw [← List.reverse_cons]
          refine .word (by simp) ?_ (begins_concat any begins cstr comment)
          simpa using And.intro (Bool.eq_false_iff.2 other) solid
  | @quoted form past chars means =>
    simp only at ok
    split at ok
    · rename_i quote
      cases ok
      subst quote
      exact .inl ⟨rfl, .closed means⟩
    · rename_i inside
      split at ok
      · rename_i backslash
        cases ok
        subst backslash
        exact .inl ⟨rfl, .escape means⟩
      · rename_i bare
        cases ok
        refine .inl ⟨rfl, ?_⟩
        have longer : List.Forall₂ (Letter.Means form.quote) (past ++ [.plain c])
            (c :: chars).reverse := by
          rw [List.reverse_cons]
          exact List.rel_append means (.cons (.plain inside bare) .nil)
        have next := @Mode.Opened.quoted file before _ _ _ longer
        simpa [Letter.spell] using next
  | @escape form past chars backslash means =>
    simp only at ok
    split at ok
    · rename_i d meant
      cases ok
      refine .inl ⟨rfl, ?_⟩
      have longer : List.Forall₂ (Letter.Means form.quote) (past ++ [.escaped c])
          (d :: chars).reverse := by
        rw [List.reverse_cons]
        exact List.rel_append means (.cons (.escaped (unescape?_eq_some_iff.1 meant)) .nil)
      have next := @Mode.Opened.quoted file before _ _ _ longer
      simpa [Letter.spell] using next
    · cases ok
  | @closed form past chars means =>
    simp only at ok
    split at ok
    · rename_i blank
      split at ok
      · rename_i t complete
        cases ok
        have makes := Literal.makes_of_token means complete
        exact .inr ⟨rfl, [_], [t], rfl, fun others => partition_piece makes blank others⟩
      · cases ok
    · cases ok

/-- At the end of a text what is being read has to be complete. -/
theorem finish_opened {out : Scanned} (opened : s.mode.Opened file before raw)
    (ok : s.finish = .ok out) :
    ∃ pieces ts, Partition file before raw pieces ts ∧ out.tokens = s.tokens.reverse ++ ts
      ∧ out.stop = s.place := by
  obtain ⟨done, old, here⟩ := s
  simp only at opened
  unfold finish at ok
  have whole : ∀ {p : Piece} {t : Token}, p.Makes (.behind file before) t →
      Partition file before p.spell [p] [t] := by
    intro p t makes
    have last := @Partition.piece file before [] p t [] [] makes (by simp) .stop
    rwa [List.append_nil] at last
  cases opened with
  | gap =>
    cases ok
    exact ⟨[], [], .stop, by simp, rfl⟩
  | comment inside =>
    cases ok
    exact ⟨[], [], .lastComment inside, by simp, rfl⟩
  | word any solid begins =>
    simp only at ok
    split at ok
    · rename_i t complete
      cases ok
      exact ⟨_, [t], whole (makes_of_word any solid begins complete), by simp, rfl⟩
    · cases ok
  | quoted means => cases ok
  | escape means => cases ok
  | closed means =>
    simp only at ok
    split at ok
    · rename_i t complete
      cases ok
      exact ⟨_, [t], whole (Literal.makes_of_token means complete), by simp, rfl⟩
    · cases ok

/-- **What is read of a text falls into pieces that make the tokens.** -/
theorem partition_of_run {chars : List Char} {last : Scanner} {out : Scanned}
    (opened : s.mode.Opened file before raw) (place : s.place = .behind file (before ++ raw))
    (ok : s.run chars = .ok last) (finished : last.finish = .ok out) :
    ∃ pieces ts, Partition file before (raw ++ chars) pieces ts
      ∧ out.tokens = s.tokens.reverse ++ ts
      ∧ out.stop = .behind file (before ++ raw ++ chars) := by
  induction chars generalizing s before raw with
  | nil =>
    cases ok
    obtain ⟨pieces, ts, whole, tokens, stop⟩ := finish_opened opened finished
    rw [List.append_nil, List.append_nil]
    exact ⟨pieces, ts, whole, tokens, stop.trans place⟩
  | cons c chars ih =>
    simp only [run] at ok
    split at ok
    · rename_i next one
      unfold step at one
      split at one
      · rename_i tokens mode here
        cases one
        have onward : s.place.after c = .behind file (before ++ raw ++ [c]) := by
          rw [place, Place.behind_singleton]
        rcases read_opened opened place here with ⟨rfl, still⟩ | ⟨rfl, pieces, ts, rfl, ended⟩
        · obtain ⟨pieces, ts, whole, tokens, stop⟩ :=
            ih still (by rw [onward, List.append_assoc]) ok
          refine ⟨pieces, ts, ?_, tokens, ?_⟩
          · simpa using whole
          · simpa using stop
        · obtain ⟨others, us, whole, tokens, stop⟩ :=
            @ih (before ++ (raw ++ [c])) [] _ .gap
              (by rw [onward, List.append_nil, List.append_assoc]) ok
          refine ⟨_, _, ended whole, ?_, ?_⟩
          · simpa using tokens
          · simpa using stop
      · cases one
    · cases ok

/-! ## A partition is found -/

section Found

variable {done : List Token} {here place : Place}

theorem run_cons {next : Scanner} {chars : List Char} (one : s.step c = .ok next) :
    s.run (c :: chars) = next.run chars := by
  simp only [run, one]

theorem step_of_read {tokens : List Token} {mode : Mode} (one : s.read c = .ok (tokens, mode)) :
    s.step c = .ok ⟨tokens, mode, s.place.after c⟩ := by
  simp only [step, one]

theorem run_comment {text : List Char} (inside : '\n' ∉ text) :
    run ⟨done, .comment, here⟩ text = .ok ⟨done, .comment, here.past text⟩ := by
  induction text generalizing here with
  | nil => rfl
  | cons c text ih =>
    obtain ⟨other, rest⟩ : '\n' ≠ c ∧ '\n' ∉ text := by simpa using inside
    have one : read ⟨done, .comment, here⟩ c = .ok (done, .comment) := by
      simp only [read, if_neg (Ne.symm other)]
    rw [run_cons (step_of_read one)]
    exact ih rest

theorem run_slashes {text : List Char} (inside : '\n' ∉ text) :
    run ⟨done, .gap, here⟩ ('/' :: '/' :: text)
      = .ok ⟨done, .comment, here.past ('/' :: '/' :: text)⟩ := by
  have first : read ⟨done, .gap, here⟩ '/' = .ok (done, .word here ['/']) := rfl
  have second : read ⟨done, .word here ['/'], here.after '/'⟩ '/' = .ok (done, .comment) := rfl
  rw [run_cons (step_of_read first), run_cons (step_of_read second), run_comment inside]
  rfl

/-- A word is read as long as it goes on and begins like nothing else. -/
theorem run_word {chars more : List Char} (solid : ∀ c ∈ more, isBlank c = false)
    (begins : ∀ o ∈ openings, ¬ o <+: chars.reverse ++ more) :
    run ⟨done, .word place chars, here⟩ more
      = .ok ⟨done, .word place (more.reverse ++ chars), here.past more⟩ := by
  induction more generalizing here chars with
  | nil => rfl
  | cons c more ih =>
    obtain ⟨first, rest⟩ := List.forall_mem_cons.1 solid
    have cstr : ¬ (chars = ['c'] ∧ c = '"') := by
      rintro ⟨rfl, rfl⟩
      exact begins ['c', '"'] (by decide) (List.prefix_append ['c', '"'] more)
    have comment : ¬ (chars = ['/'] ∧ c = '/') := by
      rintro ⟨rfl, rfl⟩
      exact begins ['/', '/'] (by decide) (List.prefix_append ['/', '/'] more)
    have one : read ⟨done, .word place chars, here⟩ c = .ok (done, .word place (c :: chars)) := by
      simp only [read, first, if_neg cstr, if_neg comment]
      rfl
    rw [run_cons (step_of_read one), ih rest (by simpa using begins)]
    simp [Place.past]

/-- Letters are read as what they stand for. -/
theorem run_letters {form : Literal} {letters : List Letter} {text chars : List Char}
    (means : List.Forall₂ (Letter.Means form.quote) letters text) :
    run ⟨done, .quoted form place chars, here⟩ (letters.flatMap Letter.spell)
      = .ok ⟨done, .quoted form place (text.reverse ++ chars),
          here.past (letters.flatMap Letter.spell)⟩ := by
  induction means generalizing here chars with
  | nil => rfl
  | @cons letter d letters text first _ ih =>
    rw [List.flatMap_cons, run_append, Place.past_append]
    have one : run ⟨done, .quoted form place chars, here⟩ letter.spell
        = .ok ⟨done, .quoted form place (d :: chars), here.past letter.spell⟩ := by
      cases first with
      | plain inside bare =>
        have here : read ⟨done, .quoted form place chars, here⟩ d
            = .ok (done, .quoted form place (d :: chars)) := by
          simp only [read, if_neg inside, if_neg bare]
        exact run_cons (step_of_read here)
      | @escaped c d listed =>
        have inside : '\\' ≠ form.quote := by cases form <;> decide
        have backslash : read ⟨done, .quoted form place chars, here⟩ '\\'
            = .ok (done, .escape form place chars here) := by
          simp only [read, if_neg inside]
          rfl
        have letter : read ⟨done, .escape form place chars here, here.after '\\'⟩ c
            = .ok (done, .quoted form place (d :: chars)) := by
          simp only [read, unescape?_eq_some_iff.2 listed]
        exact (run_cons (step_of_read backslash)).trans (run_cons (step_of_read letter))
    rw [one, Except.bind]
    exact ih.trans (by simp)

theorem run_opening (form : Literal) :
    run ⟨done, .gap, here⟩ form.opening
      = .ok ⟨done, .quoted form here [], here.past form.opening⟩ := by
  cases form with
  | str => rfl
  | cstr => rfl
  | char => rfl

/-- What is being read is a complete token. -/
inductive Mode.Completes (t : Token) : Mode → Prop where
  | word {place : Place} {chars : List Char} (made : Token.ofWord place chars.reverse = .ok t) :
      Completes t (.word place chars)
  | closed {form : Literal} {place : Place} {chars : List Char}
      (made : form.token place chars.reverse = .ok t) : Completes t (.closed form place chars)

theorem run_piece (done : List Token) {p : Piece} {t : Token} (makes : p.Makes here t) :
    ∃ mode, run ⟨done, .gap, here⟩ p.spell = .ok ⟨done, mode, here.past p.spell⟩
      ∧ mode.Completes t := by
  have literal : ∀ {form : Literal} {letters : List Letter} {text : List Char},
      List.Forall₂ (Letter.Means form.quote) letters text →
        run ⟨done, .gap, here⟩ (Piece.literal form letters).spell
          = .ok ⟨done, .closed form here text.reverse,
              here.past (Piece.literal form letters).spell⟩ := by
    intro form letters text means
    unfold Piece.spell
    rw [run_append, run_append, run_opening, Except.bind, run_letters means, Except.bind,
      Place.past_append, Place.past_append, List.append_nil]
    have quote : ∀ {place : Place}, read ⟨done, .quoted form here text.reverse, place⟩ form.quote
        = .ok (done, .closed form here text.reverse) := by
      simp only [read, if_true, implies_true]
    exact run_cons (step_of_read quote)
  cases makes with
  | @word chars kind any solid begins classified =>
    obtain ⟨c, more, rfl⟩ := List.exists_cons_of_ne_nil any
    obtain ⟨first, rest⟩ := List.forall_mem_cons.1 solid
    have double : c ≠ '"' := by
      rintro rfl
      exact begins ['"'] (by decide) (List.prefix_append ['"'] more)
    have single : c ≠ '\'' := by
      rintro rfl
      exact begins ['\''] (by decide) (List.prefix_append ['\''] more)
    have one : read ⟨done, .gap, here⟩ c = .ok (done, .word here [c]) := by
      simp only [read, first, if_neg double, if_neg single]
      rfl
    refine ⟨_, (run_cons (step_of_read one)).trans (run_word rest begins), .word ?_⟩
    rw [List.reverse_append, List.reverse_reverse]
    unfold Token.ofWord
    simp only [List.reverse_singleton, List.singleton_append,
      Token.Kind.ofWord_eq_ok_iff.2 classified]
  | str means =>
    refine ⟨_, @literal .str _ _ means, .closed ?_⟩
    rw [List.reverse_reverse]
    rfl
  | cstr means =>
    refine ⟨_, @literal .cstr _ _ means, .closed ?_⟩
    rw [List.reverse_reverse]
    rfl
  | char means one =>
    refine ⟨_, @literal .char _ _ means, .closed ?_⟩
    rw [List.reverse_reverse]
    simp only [Literal.token, one]

/-- A blank ends a token like the end of the text does. -/
theorem Mode.Completes.step {t : Token} {mode : Mode} (h : mode.Completes t)
    (blank : isBlank c = true) :
    step ⟨done, mode, here⟩ c = step ⟨t :: done, .gap, here⟩ c := by
  cases h with
  | word made | closed made => simp only [Scanner.step, read, blank, made, if_true]

theorem Mode.Completes.finish {t : Token} {mode : Mode} (h : mode.Completes t) :
    finish ⟨done, mode, here⟩ = finish ⟨t :: done, .gap, here⟩ := by
  cases h with
  | word made | closed made => simp only [Scanner.finish, made]

/-- **Every partition of a text into pieces is what is read of it.** -/
theorem run_of_partition (done : List Token) {text : List Char} {pieces : List Piece} {ts : List Token}
    (whole : Partition file before text pieces ts) :
    ∃ last, run ⟨done, .gap, .behind file before⟩ text = .ok last
      ∧ last.finish = .ok ⟨done.reverse ++ ts, .behind file (before ++ text)⟩ := by
  induction whole generalizing done with
  | stop => exact ⟨_, rfl, by simp [Scanner.finish]⟩
  | @blank before rest c pieces ts blank others ih =>
    have one : read ⟨done, .gap, .behind file before⟩ c = .ok (done, .gap) := by
      simp only [read, blank, if_true]
    obtain ⟨last, ran, finished⟩ := ih done
    refine ⟨last, ?_, ?_⟩
    · rw [run_cons (step_of_read one), ← Place.behind_singleton]
      exact ran
    · simpa using finished
  | @comment before text rest pieces ts inside others ih =>
    obtain ⟨last, ran, finished⟩ := ih done
    refine ⟨last, ?_, ?_⟩
    · rw [run_append, run_slashes inside, Except.bind]
      have newline : read ⟨done, .comment, (Place.behind file before).past ('/' :: '/' :: text)⟩
          '\n' = .ok (done, .gap) := rfl
      rw [run_cons (step_of_read newline), ← Place.behind_append, ← Place.behind_singleton]
      exact ran
    · simpa using finished
  | @lastComment before text inside =>
    refine ⟨_, run_slashes inside, ?_⟩
    rw [← Place.behind_append]
    simp [Scanner.finish]
  | @piece before rest p t pieces ts makes apart others ih =>
    obtain ⟨mode, read, completes⟩ := run_piece done makes
    rw [← Place.behind_append] at read
    obtain ⟨last, ran, finished⟩ := ih (t :: done)
    have tokens : (t :: done).reverse ++ ts = done.reverse ++ t :: ts := by simp
    rw [tokens, List.append_assoc] at finished
    cases rest with
    | nil =>
      cases ran
      refine ⟨_, ?_, completes.finish.trans finished⟩
      rw [List.append_nil, read]
    | cons c rest =>
      refine ⟨last, ?_, finished⟩
      rw [run_append, read, Except.bind]
      simp only [run, completes.step (apart c rfl)] at ran ⊢
      exact ran

end Found

end Scanner

/-- **A text falls into blanks, comments and pieces, and nothing is lost, read twice or misplaced.** It
is read just if it can be taken apart like that, into whole words and literals with a blank or the end
behind each and every numeral of a value; the tokens are then what the pieces make, in order, each at
the line and the column of its first character, and the end is behind the last character. -/
theorem Scanned.ofText_eq_ok_iff {text file : String} {s : Scanned} :
    ofText text file = .ok s
      ↔ (∃ pieces, Partition file [] text.toList pieces s.tokens)
        ∧ s.stop = .behind file text.toList := by
  have start : Scanner.start file = ⟨[], .gap, .behind file []⟩ := rfl
  unfold ofText
  rw [start]
  constructor
  · intro ok
    split at ok
    · rename_i last ran
      obtain ⟨pieces, ts, whole, tokens, stop⟩ := Scanner.partition_of_run (@Scanner.Mode.Opened.gap file []) rfl ran ok
      rw [tokens]
      exact ⟨⟨pieces, whole⟩, stop⟩
    · cases ok
  · rintro ⟨⟨pieces, whole⟩, stop⟩
    obtain ⟨last, ran, finished⟩ := Scanner.run_of_partition [] whole
    obtain ⟨tokens, place⟩ := s
    simp only at stop finished ⊢
    subst stop
    rw [ran]
    exact finished

end PinnedStack
