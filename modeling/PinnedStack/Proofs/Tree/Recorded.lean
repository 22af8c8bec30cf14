import PinnedStack.Proofs.Tree.Agreement

/-!
# No function is missed

The second reading refuses a function that the first one did not record. It never comes to that.

* `Recorded` — a step that fails, if at all, for another cause. `Ordinary` — a step that fails, if at
  all, for the fault of one definition or one statement.
* `Scanned.recorded_ofText`, `Survey.ordinary_run` — what comes before the second reading.
* `Survey.heads_lt_of_function` — where a function begins, the first reading records one more.
* `Program.refused_ofTokens` — all other faults are found at the end of the text.
* `Program.recorded_ofText` — so every text is read without a missing function.
-/

namespace PinnedStack

/-- Is it a function that the first reading missed? -/
def Fault.isUnrecorded : Fault → Bool
  | malformed .unrecorded => true
  | _ => false

/-- A step that fails, if at all, for another cause than a function that was not recorded. -/
def Recorded {α : Type} (step : Except Diagnostic α) : Prop :=
  ∀ d, step = .error d → d.fault.isUnrecorded = false

/-- Is it the fault of one definition or one statement? What is left are the faults of a literal, the
end of the text in a block, and a function that the first reading missed. -/
@[simp] def Malformation.isOrdinary : Malformation → Bool
  | unterminatedLiteral _ | literalEndsInEscape | unterminated _ | unrecorded | stated _ => false
  | unknownEscape _ | literalNotSeparated | characterNotOneByte | invalidInteger _ | missingName _
  | missingSignature _ | invalidInput _ _ | invalidOutput _ _ | mixedInputs _ | invalidField _ _
  | wideField _ _ | repeatedField _ _ | noFields _ | negativeSize _ _ | noValue _ _ _
  | notConstant _ | valueCount _ _ | unexpected _ | missingIterator | invalidBinding _ | noBindings
  | invalidPinName _ | reservedPinName _ | reservedName _ | invalidName _ | missingType
  | bareRecord _ => true

/-- Is it the fault of one definition or one statement? -/
def Fault.isOrdinary : Fault → Bool
  | malformed cause => cause.isOrdinary
  | _ => true

/-- A step that fails, if at all, for the fault of one definition or one statement. -/
def Ordinary {α : Type} (step : Except Diagnostic α) : Prop :=
  ∀ d, step = .error d → d.fault.isOrdinary = true

section Recorded

variable {α : Type} {place : Place}

@[simp] theorem recorded_ok (a : α) : Recorded (.ok a : Except Diagnostic α) :=
  fun _ eq => by cases eq

@[simp] theorem recorded_error {d : Diagnostic} :
    Recorded (.error d : Except Diagnostic α) ↔ d.fault.isUnrecorded = false := by
  simp [Recorded]

@[simp] theorem isUnrecorded_malformed (cause : Malformation) :
    (Diagnostic.malformed place cause).fault.isUnrecorded = decide (cause = .unrecorded) := by
  cases cause <;> rfl

@[simp] theorem ordinary_ok (a : α) : Ordinary (.ok a : Except Diagnostic α) :=
  fun _ eq => by cases eq

@[simp] theorem ordinary_error {d : Diagnostic} :
    Ordinary (.error d : Except Diagnostic α) ↔ d.fault.isOrdinary = true := by
  simp [Ordinary]

@[simp] theorem isOrdinary_malformed (cause : Malformation) :
    (Diagnostic.malformed place cause).fault.isOrdinary = cause.isOrdinary := rfl

theorem Fault.isUnrecorded_of_isOrdinary {fault : Fault} (ordinary : fault.isOrdinary = true) :
    fault.isUnrecorded = false := by
  unfold Fault.isUnrecorded
  split
  · cases ordinary
  · rfl

end Recorded

/-! ## Tokens -/

theorem Literal.recorded_token (form : Literal) (start : Place) (text : List Char) :
    Recorded (form.token start text) := by
  unfold token
  cases form with
  | str => simp
  | cstr => simp
  | char =>
    simp only
    split <;> simp

theorem Token.recorded_ofWord (start : Place) (word : List Char) :
    Recorded (Token.ofWord start word) := by
  have kind : ∀ lexeme, Recorded (Token.Kind.ofWord lexeme start) := by
    intro lexeme
    unfold Token.Kind.ofWord
    split
    · simp
    · split
      · split <;> simp
      · simp
  unfold Token.ofWord
  simp only
  split
  · simp
  · rename_i d refused
    exact recorded_error.2 (kind _ d refused)

namespace Scanner

theorem recorded_step (s : Scanner) (c : Char) : Recorded (s.step c) := by
  have read : Recorded (s.read c) := by
    unfold read
    split
    · split
      · simp
      · split
        · simp
        · split <;> simp
    · simp
    · split
      · split
        · simp
        · rename_i d refused
          exact recorded_error.2 (Token.recorded_ofWord _ _ d refused)
      · split
        · simp
        · split <;> simp
    · split
      · simp
      · split <;> simp
    · split <;> simp
    · split
      · split
        · simp
        · rename_i d refused
          exact recorded_error.2 (Literal.recorded_token _ _ _ d refused)
      · simp
  unfold step
  split
  · simp
  · rename_i d refused
    exact recorded_error.2 (read d refused)

theorem recorded_run (s : Scanner) (cs : List Char) : Recorded (s.run cs) := by
  induction cs generalizing s with
  | nil => simp [run]
  | cons c cs ih =>
    simp only [run]
    split
    · exact ih _
    · rename_i d refused
      exact recorded_error.2 (recorded_step s c d refused)

theorem recorded_finish (s : Scanner) : Recorded s.finish := by
  unfold finish
  split
  · simp
  · simp
  · split
    · simp
    · rename_i d refused
      exact recorded_error.2 (Token.recorded_ofWord _ _ d refused)
  · simp
  · simp
  · split
    · simp
    · rename_i d refused
      exact recorded_error.2 (Literal.recorded_token _ _ _ d refused)

end Scanner

theorem Scanned.recorded_ofText (text file : String) : Recorded (Scanned.ofText text file) := by
  unfold ofText
  split
  · exact Scanner.recorded_finish _
  · rename_i d refused
    exact recorded_error.2 (Scanner.recorded_run _ _ d refused)

/-! ## Names and constants -/

section Names

variable {g : Globals} {name : String} {place : Place}

theorem Globals.ordinary_tyOf (text : String) : Ordinary (g.tyOf text place) := by
  have named : ∀ name, Ordinary (g.tyNamed name place) := by
    intro name
    unfold tyNamed
    split
    · simp
    · split
      · simp
      · split
        · simp
        · split <;> simp [Fault.isOrdinary]
  unfold tyOf
  generalize text.toList = chars
  induction chars with
  | nil => exact named _
  | cons c rest ih =>
    unfold tyOfChars
    split
    · rename_i rest' eq
      cases eq
      split
      · simp
      · rename_i d refused
        exact ordinary_error.2 (ih d refused)
    · exact named _

theorem Globals.ordinary_define (meaning : Meaning) : Ordinary (g.define name meaning place) := by
  unfold define
  split
  · simp
  · split
    · simp
    · split <;> simp [Fault.isOrdinary]

theorem ordinary_checkPinName : Ordinary (checkPinName name place) := by
  unfold checkPinName
  simp only
  split
  · simp
  · split <;> simp

theorem Constant.ordinary_step (stack : List Int64) (t : Token) : Ordinary (step g stack t) := by
  unfold step
  cases t.kind with
  | int value => simp
  | word =>
    simp only
    split
    · unfold apply
      split
      · split <;> simp
      · simp [Fault.isOrdinary]
    · split
      · simp
      · rename_i d refused
        unfold valueOf at refused
        split at refused <;> cases refused
        simp [Fault.isOrdinary]
  | keyword | str | cstr => simp

theorem Constant.ordinary_eval (t : Token) (expression : List Token) :
    Ordinary (eval g t expression) := by
  have ran : ∀ stack, Ordinary (run g stack expression) := by
    intro stack
    induction expression generalizing stack with
    | nil => simp [run]
    | cons t ts ih =>
      simp only [run]
      split
      · exact ih _
      · rename_i d refused
        exact ordinary_error.2 (ordinary_step stack t d refused)
  unfold eval
  split
  · rename_i d refused
    exact ordinary_error.2 (ran _ d refused)
  · simp
  · simp

end Names

/-! ## The first reading -/

namespace Survey

variable {s next : Survey} {g : Globals} {t : Token}

theorem ordinary_recordOf (name : Token) (ts : List Token) : Ordinary (recordOf g name ts) := by
  have add : ∀ fields t, Ordinary (addField g name.lexeme fields t) := by
    intro fields t
    unfold addField
    split
    · split
      · simp
      · split
        · rename_i d refused
          exact ordinary_error.2 (Globals.ordinary_tyOf _ d refused)
        · split
          · simp
          · split <;> simp
    · simp
  have all : ∀ fields, Ordinary (fieldsOf g name.lexeme fields ts) := by
    intro fields
    induction ts generalizing fields with
    | nil => simp [fieldsOf]
    | cons t ts ih =>
      simp only [fieldsOf]
      split
      · exact ih _
      · rename_i d refused
        exact ordinary_error.2 (add fields t d refused)
  unfold recordOf
  split
  · rename_i d refused
    exact ordinary_error.2 (all _ d refused)
  · simp
  · simp

theorem ordinary_regionOf (name : Token) (ts : List Token) : Ordinary (regionOf g name ts) := by
  have bare : ∀ ts, Ordinary (bareRegion g name ts) := by
    intro ts
    unfold bareRegion
    split
    · rename_i d refused
      exact ordinary_error.2 (Constant.ordinary_eval _ _ d refused)
    · split <;> simp
  unfold regionOf
  split
  · split
    · split
      · simp
      · exact bare _
    · exact bare _
  · exact bare _

theorem ordinary_record (name : Token) (meaning : Meaning) (supply : Supply) : Ordinary
    (match s.globals.define name.lexeme meaning name.place with
      | .ok globals => .ok { s with globals := globals, supply := supply, phase := .between }
      | .error d => .error d : Except Diagnostic Survey) := by
  split
  · simp
  · rename_i d refused
    exact ordinary_error.2 (Globals.ordinary_define _ d refused)

theorem ordinary_definePlain (plain : Plain) (name : Token) (ts : List Token) :
    Ordinary (s.definePlain plain name ts) := by
  unfold definePlain
  cases plain with
  | record =>
    simp only
    split
    · exact ordinary_record name _ _
    · rename_i d refused
      exact ordinary_error.2 (ordinary_recordOf _ _ d refused)
  | constant =>
    simp only
    split
    · exact ordinary_record name _ _
    · rename_i d refused
      exact ordinary_error.2 (Constant.ordinary_eval _ _ d refused)
  | memory =>
    simp only
    split
    · exact ordinary_record name _ _
    · rename_i d refused
      exact ordinary_error.2 (ordinary_regionOf _ _ d refused)

theorem ordinary_defineFunction (naming : Naming) (contract : Contract)
    (params : Option (List (String × Ty))) : Ordinary (s.defineFunction naming contract params) := by
  unfold defineFunction
  simp only
  split
  · rename_i d refused
    exact ordinary_error.2 (Globals.ordinary_define _ d refused)
  · simp

theorem ordinary_advance (phase : Survey.Phase) : Ordinary (advance g t phase) := by
  cases phase with
  | between =>
    simp only [advance]
    split
    · split <;> simp
    · simp
  | naming form opener =>
    simp only [advance]
    split
    · split <;> simp
    · simp
  | collecting plain naming tokens => simp [advance]
  | opening naming =>
    simp only [advance]
    split <;> simp
  | inputs naming named anonymous =>
    simp only [advance]
    split
    · simp
    · unfold input
      split
      · split
        · rename_i d refused
          exact ordinary_error.2 (ordinary_checkPinName d refused)
        · split
          · simp
          · rename_i d refused
            exact ordinary_error.2 (Globals.ordinary_tyOf _ d refused)
      · split
        · simp
        · rename_i d refused
          exact ordinary_error.2 (Globals.ordinary_tyOf _ d refused)
    · simp
  | outputs naming named anonymous outputs =>
    simp only [advance]
    split
    · unfold signature
      split <;> simp
    · split
      · simp
      · rename_i d refused
        exact ordinary_error.2 (Globals.ordinary_tyOf _ d refused)
    · simp
  | body naming contract params depth =>
    simp only [advance]
    split <;> simp

theorem ordinary_step (s : Survey) (t : Token) : Ordinary (s.step t) := by
  unfold step
  split
  · exact ordinary_definePlain _ _ _
  · exact ordinary_defineFunction _ _ _
  · split
    · simp
    · rename_i d refused
      exact ordinary_error.2 (ordinary_advance _ d refused)

/-- The first reading fails for the fault of a definition, up to the end of the text. -/
theorem ordinary_run (ts : List Token) : Ordinary (s.run ts) := by
  induction ts generalizing s with
  | nil => simp [run]
  | cons t ts ih =>
    simp only [run]
    split
    · exact ih
    · rename_i d refused
      exact ordinary_error.2 (ordinary_step s t d refused)

theorem recorded_finish (stop : Place) : Recorded (s.finish stop) := by
  unfold finish
  split <;> simp

/-- Where the text of a function has begun, one more is recorded before it is over. -/
theorem heads_lt_of_function {ts : List Token}
    (inside : s.phase.stage = .heading ∨ ∃ depth, s.phase.stage = .body depth)
    (ok : s.run ts = .ok next) (done : next.phase.stage = .between) :
    s.heads.length < next.heads.length := by
  -- Only the token that ends a function leads out of it; what comes later takes nothing back.
  have grows : ∀ {ts : List Token} {s : Survey}, s.run ts = .ok next →
      s.heads.length ≤ next.heads.length := by
    intro ts
    induction ts with
    | nil =>
      intro s ok
      cases ok
      exact Nat.le_refl _
    | cons t ts ih =>
      intro s ok
      simp only [run] at ok
      split at ok
      · rename_i one here
        obtain ⟨-, ends, goes⟩ := step_stage here
        have rest := ih ok
        by_cases last : s.phase.stage.Ends t.kind
        · have := ends last
          omega
        · have := goes last
          omega
      · cases ok
  induction ts generalizing s with
  | nil =>
    cases ok
    rcases inside with stage | ⟨depth, stage⟩ <;> rw [stage] at done <;> cases done
  | cons t ts ih =>
    simp only [run] at ok
    split at ok
    · rename_i one here
      obtain ⟨stage, ends, goes⟩ := step_stage here
      by_cases last : s.phase.stage.Ends t.kind
      · have := ends last
        have := grows ok
        omega
      · have onward : one.phase.stage = .heading ∨ ∃ depth, one.phase.stage = .body depth := by
          rw [stage]
          rcases inside with before | ⟨depth, before⟩ <;> rw [before] at last ⊢
          · by_cases kind : t.kind = .keyword .closeParen
            · exact .inr ⟨1, by simp [Stage.next, kind]⟩
            · exact .inl (by simp [Stage.next, kind])
          · simp only [Stage.Ends, Stage.body.injEq] at last
            unfold Stage.next
            split <;> simp_all
        have := ih onward ok
        have := goes last
        omega
    · cases ok

end Survey

/-! ## The second reading -/

namespace Reader

variable {r : Reader} {g : Globals} {s : Supply} {t : Token} {place : Place}

theorem ordinary_pin (name : String) (ty : Ty) : Ordinary (s.pin name ty place) := by
  unfold Supply.pin
  split
  · rename_i fault refused
    unfold PinBook.pin at refused
    split at refused <;> cases refused
    simp [Fault.isOrdinary]
  · simp

theorem ordinary_resolve (word : String) : Ordinary (resolve g s word place) := by
  have operation : Ordinary (recordOp g word place) := by
    unfold recordOp
    split
    · simp
    · split
      · simp
      · split
        · simp
        · split
          · simp
          · split <;> simp [Fault.isOrdinary]
  have named : Ordinary (globalNode g word place) := by
    unfold globalNode
    split
    · simp
    · simp
    · simp
    · simp
    · simp [Fault.isOrdinary]
  unfold resolve
  split
  · simp
  · split
    · simp
    · split
      · simp
      · split
        · rename_i d refused
          exact ordinary_error.2 (operation d refused)
        · simp
        · exact named

theorem ordinary_named (name : String) (ty : Ty) (place : Place) : Ordinary
    (match checkPinName name place with
      | .ok () => .ok (name, ty)
      | .error d => .error d : Except Diagnostic (String × Ty)) := by
  split
  · simp
  · rename_i d refused
    exact ordinary_error.2 (ordinary_checkPinName d refused)

theorem ordinary_bindName (byDefault : Ty) : Ordinary (bindName g s t byDefault) := by
  have bound : Ordinary (binding g t byDefault) := by
    unfold binding
    simp only
    split
    · exact ordinary_named _ _ _
    · split
      · exact ordinary_named _ _ _
      · rename_i d refused
        exact ordinary_error.2 (Globals.ordinary_tyOf _ d refused)
  unfold bindName
  split
  · exact ordinary_pin _ _
  · rename_i d refused
    exact ordinary_error.2 (bound d refused)

theorem ordinary_openFunction (head : Head) (opener : Place) :
    Ordinary (r.openFunction head opener) := by
  have params : ∀ params s, Ordinary (bindParams s head.place params) := by
    intro params
    induction params with
    | nil => simp [bindParams]
    | cons param rest ih =>
      intro s
      obtain ⟨name, ty⟩ := param
      simp only [bindParams]
      split
      · rename_i d refused
        exact ordinary_error.2 (ordinary_pin _ _ d refused)
      · split
        · simp
        · rename_i d refused
          exact ordinary_error.2 (ih _ d refused)
  unfold openFunction
  split
  · rename_i d refused
    exact ordinary_error.2 (params _ _ d refused)
  · simp

/-- A keyword is at worst unexpected, as long as functions lie ahead where one begins. -/
theorem ordinary_keyword {k : Keyword} (ahead : k = .colon → r.blocks = [] → r.heads ≠ []) :
    Ordinary (r.keyword k place) := by
  unfold keyword
  simp only
  split
  case h_8 blocks =>
    split
    · simp
    · rename_i none
      exact absurd none (ahead rfl blocks)
  case h_5 =>
    split <;> simp
  all_goals simp

/-- A token is refused for another cause, as long as functions lie ahead where one begins. -/
theorem ordinary_step
    (ahead : r.phase = .statement → t.kind = .keyword .colon → r.blocks = [] → r.heads ≠ []) :
    Ordinary (step g r t) := by
  unfold step
  split
  · rename_i phase
    unfold statement
    split
    · simp
    · simp
    · simp
    · split
      · simp
      · rename_i d refused
        exact ordinary_error.2 (ordinary_resolve _ d refused)
    · rename_i kind
      exact ordinary_keyword fun eq => ahead phase (eq ▸ kind)
  · split
    · exact ordinary_openFunction _ _
    · simp
  · simp
  · split
    · unfold openLoop
      split
      · rename_i d refused
        exact ordinary_error.2 (ordinary_bindName _ d refused)
      · simp
    · simp
  · unfold bindToken
    split
    · unfold openBind
      split <;> simp
    · split
      · simp
      · rename_i d refused
        exact ordinary_error.2 (ordinary_bindName _ d refused)
    · simp

theorem recorded_finish (stop : Place) : Recorded (r.finish stop) := by
  unfold finish
  split <;> simp

/-- Next to a first reading that came to its end, the second misses no function. -/
theorem ordinary_run {survey first : Survey} {callees : List Call} {capacity : Nat} {ts : List Token}
    (agree : Agree first r) (hg : g.Sound callees) (nested : r.Nested callees capacity)
    (all : r.calls = survey.heads.map Head.call) (ok : first.run ts = .ok survey)
    (done : survey.phase.stage = .between) : Ordinary (run g r ts) := by
  induction ts generalizing first r with
  | nil => simp [run]
  | cons t ts ih =>
    simp only [Survey.run] at ok
    split at ok
    · rename_i one here
      have ahead : r.phase = .statement → t.kind = .keyword .colon → r.blocks = [] →
          r.heads ≠ [] := by
        intro phase kind blocks none
        obtain ⟨stage, -, goes⟩ := Survey.step_stage here
        have outside : r.stage = .between := by
          rw [stage_eq (by simp [phase]) (by simp [phase]), blocks]
          rfl
        have before : first.phase.stage = .between := agree.stage.trans outside
        rw [before, kind] at stage goes
        have more := Survey.heads_lt_of_function (.inl stage) ok done
        have same := goes (by simp [Stage.Ends])
        have total := congrArg List.length all
        rw [calls, current_eq (by simp [phase]), blocks, none] at total
        simp [definedBy] at total
        have := agree.count
        omega
      simp only [run]
      split
      · rename_i next stepped
        have moves := step_moves stepped
        exact ih (agree.step nested here moves) (nested_moves hg nested moves)
          ((moves_calls nested moves).1.trans all) ok
      · rename_i d refused
        exact ordinary_error.2 (ordinary_step ahead d refused)
    · cases ok

end Reader

namespace Program

variable {limits : Limits}

/-- Tokens are refused for the fault of a definition or a statement, or at their end by one of the two
readings. -/
theorem refused_ofTokens {text : Scanned} {d : Diagnostic}
    (refused : Program.ofTokens limits text = .error d) :
    d.fault.isOrdinary = true
      ∨ (∃ s, (Survey.start limits).run text.tokens = .ok s ∧ s.finish text.stop = .error d)
      ∨ ∃ survey r, Survey.ofTokens limits text = .ok survey
        ∧ Reader.run survey.globals (.start survey) text.tokens = .ok r
        ∧ r.finish text.stop = .error d := by
  unfold Program.ofTokens at refused
  split at refused
  · rename_i first
    cases refused
    unfold Survey.ofTokens at first
    split at first
    · rename_i s ran
      exact .inr (.inl ⟨s, ran, first⟩)
    · rename_i ran
      cases first
      exact .inl (Survey.ordinary_run _ _ ran)
  · rename_i survey first
    have sound := Survey.ofTokens_sound first
    obtain ⟨whole, between⟩ := Survey.ofTokens_eq_ok first
    have nested := Reader.nested_start (survey.heads.map Head.call) sound.heads
      (Survey.run_book whole)
    have begun : (Reader.start survey).calls = survey.heads.map Head.call := by
      simp [Reader.calls, Reader.start, Reader.current, Reader.definedBy]
    have agree : Agree (.start limits) (.start survey) := ⟨rfl, rfl⟩
    have ran := Reader.ordinary_run agree sound.globals nested begun whole (by rw [between]; rfl)
    split at refused
    · rename_i second
      cases refused
      exact .inl (ran _ second)
    · rename_i r second
      split at refused
      · rename_i finished
        cases refused
        exact .inr (.inr ⟨survey, r, first, second, finished⟩)
      · cases refused

/-- **No text has a function that the first reading missed.** -/
theorem recorded_ofText (limits : Limits) (text file : String) :
    Recorded (Program.ofText limits text file) := by
  unfold ofText
  split
  · intro d refused
    rcases refused_ofTokens refused with ordinary | ⟨s, -, finished⟩ | ⟨_, r, -, -, finished⟩
    · exact Fault.isUnrecorded_of_isOrdinary ordinary
    · exact Survey.recorded_finish _ d finished
    · exact Reader.recorded_finish _ d finished
  · rename_i d refused
    exact recorded_error.2 (Scanned.recorded_ofText _ _ d refused)

end Program

end PinnedStack
