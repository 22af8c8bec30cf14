import PinnedStack.Survey

/-!
# The first reading does not depend on places

* `Fault.kind` — what a fault is, without its details.
* `Mirrors` — a step that is made with places and one that is made without them give the same but for
  places, or they are refused with faults of one kind.
* `Token.unplaced`, `Globals.unplaced`, `Survey.unplaced` and so on — what is left without places.
* `Survey.mirrors_step`, `Survey.mirrors_ofTokens` — one token, and all definitions of a text.
-/

namespace PinnedStack

/-! ## Results -/

inductive Fault.Kind where
  | underflow
  | mismatch
  | branchShape
  | loopShape
  | duplicate
  | unresolved
  | contract
  | malformed
  | pinsExhausted
deriving DecidableEq

/-- What a fault is, without its details. -/
def Fault.kind : Fault → Fault.Kind
  | underflow _ _ _ => .underflow
  | mismatch _ _ _ => .mismatch
  | branchShape _ _ => .branchShape
  | loopShape _ _ => .loopShape
  | duplicate _ _ => .duplicate
  | unresolved _ => .unresolved
  | contract _ _ _ _ => .contract
  | malformed _ => .malformed
  | pinsExhausted _ _ _ => .pinsExhausted

/-- A step that was made with places and one that was made without them. They give the same, apart
from what the second forgets, or they are refused with faults of one kind. -/
inductive Mirrors {α β : Type} (forget : α → β) :
    Except Diagnostic α → Except Diagnostic β → Prop where
  | ok (a : α) : Mirrors forget (.ok a) (.ok (forget a))
  | error {d e : Diagnostic} (kind : d.fault.kind = e.fault.kind) :
      Mirrors forget (.error d) (.error e)

namespace Mirrors

variable {α β γ δ : Type} {forget : α → β} {other : γ → δ} {x : Except Diagnostic α}
  {y : Except Diagnostic β}

/-- Where two steps mirror each other, what depends on both can be shown for results and for
faults. -/
@[elab_as_elim]
theorem elim {motive : Except Diagnostic α → Except Diagnostic β → Prop} (h : Mirrors forget x y)
    (ok : ∀ a, motive (.ok a) (.ok (forget a)))
    (error : ∀ d e, d.fault.kind = e.fault.kind → motive (.error d) (.error e)) : motive x y := by
  cases h with
  | ok a => exact ok a
  | error kind => exact error _ _ kind

theorem of_eq {a : α} {b : β} (same : forget a = b) : Mirrors forget (.ok a) (.ok b) :=
  same ▸ .ok a

theorem bind {f : α → Except Diagnostic γ} {g : β → Except Diagnostic δ} (h : Mirrors forget x y)
    (each : ∀ a, Mirrors other (f a) (g (forget a))) : Mirrors other (x >>= f) (y >>= g) := by
  cases h with
  | ok a => exact each a
  | error kind => exact .error kind

/-- Both steps ask the same. -/
theorem choice {c d : Prop} [Decidable c] [Decidable d] {x' : Except Diagnostic α}
    {y' : Except Diagnostic β} (asked : c ↔ d) (yes : c → Mirrors forget x y)
    (no : ¬ c → Mirrors forget x' y') :
    Mirrors forget (if c then x else x') (if d then y else y') := by
  by_cases holds : c
  · rw [if_pos holds, if_pos (asked.1 holds)]
    exact yes holds
  · rw [if_neg holds, if_neg fun other => holds (asked.2 other)]
    exact no holds

/-- Two steps that mirror one give the same, apart from what is forgotten, or faults of one kind. -/
theorem same {x' : Except Diagnostic α} (h : Mirrors forget x y) (h' : Mirrors forget x' y) :
    (∃ d e, x = .error d ∧ x' = .error e ∧ d.fault.kind = e.fault.kind)
      ∨ ∃ a b, x = .ok a ∧ x' = .ok b ∧ forget a = forget b := by
  cases h with
  | ok a =>
    generalize eq : Except.ok (forget a) = z at h'
    cases h' with
    | ok b =>
      injection eq with eq
      exact .inr ⟨a, b, rfl, rfl, eq⟩
    | error => cases eq
  | error kind =>
    generalize eq : Except.error _ = z at h'
    cases h' with
    | ok => cases eq
    | error other =>
      cases eq
      exact .inl ⟨_, _, rfl, rfl, kind.trans other.symm⟩

end Mirrors

/-! ## Without places -/

def Token.unplaced (t : Token) : Token := { t with place := .builtin }

def Scanned.unplaced (s : Scanned) : Scanned := ⟨s.tokens.map Token.unplaced, .builtin⟩

def Global.unplaced (e : Global) : Global := { e with place := .builtin }

def Globals.unplaced (g : Globals) : Globals := ⟨g.entries.map Global.unplaced⟩

def Head.unplaced (h : Head) : Head := { h with place := .builtin }

def Naming.unplaced (n : Naming) : Naming := ⟨.builtin, n.name.unplaced⟩

def Survey.Phase.unplaced : Survey.Phase → Survey.Phase
  | between => between
  | naming form _ => naming form .builtin
  | collecting plain n tokens => collecting plain n.unplaced (tokens.map Token.unplaced)
  | opening n => opening n.unplaced
  | inputs n named anonymous => inputs n.unplaced named anonymous
  | outputs n named anonymous outs => outputs n.unplaced named anonymous outs
  | body n contract params depth => body n.unplaced contract params depth

def Survey.unplaced (s : Survey) : Survey :=
  ⟨s.globals.unplaced, s.supply, s.heads.map Head.unplaced, s.phase.unplaced⟩

@[simp] theorem Token.unplaced_kind (t : Token) : t.unplaced.kind = t.kind := rfl

@[simp] theorem Token.unplaced_lexeme (t : Token) : t.unplaced.lexeme = t.lexeme := rfl

/-! ## Names -/

namespace Globals

variable {g : Globals} {p q : Place} {name : String}

@[simp] theorem find?_unplaced (g : Globals) (name : String) :
    g.unplaced.find? name = g.find? name := by
  simp [find?, entry?, unplaced, List.find?_map, Function.comp_def, Global.unplaced]

@[simp] theorem record?_unplaced (g : Globals) (name : String) :
    g.unplaced.record? name = g.record? name := by simp [record?]

theorem mirrors_define (name : String) (meaning : Meaning) :
    Mirrors unplaced (g.define name meaning p) (g.unplaced.define name meaning .builtin) := by
  have same : g.unplaced.entry? name = (g.entry? name).map Global.unplaced := by
    simp [unplaced, entry?, List.find?_map, Function.comp_def, Global.unplaced]
  unfold define
  rw [same]
  split
  · exact .error rfl
  · split
    · exact .error rfl
    · cases g.entry? name with
      | some previous => exact .error rfl
      | none => exact .ok _

theorem mirrors_tyNamed : Mirrors id (g.tyNamed name p) (g.unplaced.tyNamed name q) := by
  unfold tyNamed
  rw [record?_unplaced]
  split
  · exact .ok _
  · split
    · exact .ok _
    · split
      · exact .error rfl
      · split
        · exact .ok _
        · exact .error rfl

theorem mirrors_tyOf (text : String) : Mirrors id (g.tyOf text p) (g.unplaced.tyOf text q) := by
  unfold tyOf
  induction text.toList with
  | nil => exact mirrors_tyNamed
  | cons c chars ih =>
    unfold tyOfChars
    split
    · rename_i same
      cases same
      exact ih.elim (fun _ => .ok _) fun _ _ => .error
    · exact mirrors_tyNamed

end Globals

theorem mirrors_checkPinName (name : String) (p q : Place) :
    Mirrors id (checkPinName name p) (checkPinName name q) := by
  unfold checkPinName
  simp only
  split
  · exact .error rfl
  · split
    · exact .error rfl
    · exact .ok ()

/-! ## Constant expressions -/

namespace Constant

variable {g : Globals}

theorem mirrors_step (stack : List Int64) (t : Token) :
    Mirrors id (step g stack t) (step g.unplaced stack t.unplaced) := by
  unfold step
  rw [Token.unplaced_kind, Token.unplaced_lexeme]
  cases t.kind with
  | int value => exact .ok _
  | word =>
    simp only
    split
    · unfold apply
      split
      · split
        · exact .ok _
        · exact .error rfl
      · exact .error rfl
    · unfold valueOf
      rw [Globals.find?_unplaced]
      cases g.find? t.lexeme with
      | none => exact .error rfl
      | some meaning =>
        cases meaning with
        | record | constant => exact .ok _
        | memory | function => exact .error rfl
  | str | cstr | keyword => exact .error rfl

theorem mirrors_run (stack : List Int64) (ts : List Token) :
    Mirrors id (run g stack ts) (run g.unplaced stack (ts.map Token.unplaced)) := by
  induction ts generalizing stack with
  | nil => exact .ok _
  | cons t ts ih =>
    rw [List.map_cons, run, run]
    exact (mirrors_step stack t).elim ih fun _ _ => .error

theorem mirrors_eval (name : Token) (ts : List Token) :
    Mirrors id (eval g name ts) (eval g.unplaced name.unplaced (ts.map Token.unplaced)) := by
  unfold eval
  refine (mirrors_run [] ts).elim (fun stack => ?_) fun _ _ => .error
  match stack with
  | [value] => exact .ok _
  | [] => exact .error rfl
  | _ :: _ :: _ => exact .error rfl

end Constant

/-! ## Definitions -/

namespace Survey

variable {g : Globals}

theorem mirrors_addField (record : String) (fields : List PinnedStack.Field) (t : Token) :
    Mirrors id (addField g record fields t) (addField g.unplaced record fields t.unplaced) := by
  unfold addField
  simp only [Token.unplaced_kind, Token.unplaced_lexeme]
  split
  · split
    · exact .error rfl
    · refine (Globals.mirrors_tyOf _).elim (fun ty => ?_) fun _ _ => .error
      simp only [id]
      split
      · exact .error rfl
      · split
        · exact .error rfl
        · exact .ok _
  · exact .error rfl

theorem mirrors_fieldsOf (record : String) (fields : List PinnedStack.Field) (ts : List Token) :
    Mirrors id (fieldsOf g record fields ts)
      (fieldsOf g.unplaced record fields (ts.map Token.unplaced)) := by
  induction ts generalizing fields with
  | nil => exact .ok _
  | cons t ts ih =>
    rw [List.map_cons, fieldsOf, fieldsOf]
    exact (mirrors_addField record fields t).elim ih fun _ _ => .error

theorem mirrors_recordOf (name : Token) (ts : List Token) :
    Mirrors id (recordOf g name ts) (recordOf g.unplaced name.unplaced (ts.map Token.unplaced)) := by
  unfold recordOf
  refine (mirrors_fieldsOf name.lexeme [] ts).elim (fun fields => ?_) fun _ _ => .error
  cases fields with
  | nil => exact .error rfl
  | cons => exact .ok _

theorem mirrors_bareRegion (name : Token) (ts : List Token) :
    Mirrors id (bareRegion g name ts)
      (bareRegion g.unplaced name.unplaced (ts.map Token.unplaced)) := by
  unfold bareRegion
  refine (Constant.mirrors_eval name ts).elim (fun size => ?_) fun _ _ => .error
  simp only [id]
  split
  · exact .error rfl
  · exact .ok _

theorem mirrors_regionOf (name : Token) (ts : List Token) :
    Mirrors id (regionOf g name ts) (regionOf g.unplaced name.unplaced (ts.map Token.unplaced)) := by
  match ts with
  | [] => exact mirrors_bareRegion (g := g) name []
  | [only] =>
    simp only [regionOf, List.map_cons, List.map_nil, Token.unplaced_kind, Token.unplaced_lexeme,
      Globals.record?_unplaced]
    split
    · split
      · exact .ok _
      · exact mirrors_bareRegion name [only]
    · exact mirrors_bareRegion name [only]
  | first :: second :: rest => exact mirrors_bareRegion name (first :: second :: rest)

variable {s : Survey}

/-- Recording a definition depends on places no more than its parts do. -/
theorem mirrors_record (name : Token) (meaning : Meaning) (supply : Supply) :
    Mirrors unplaced
      (match s.globals.define name.lexeme meaning name.place with
        | .ok globals => .ok { s with globals := globals, supply := supply, phase := .between }
        | .error d => .error d)
      (match s.unplaced.globals.define name.unplaced.lexeme meaning name.unplaced.place with
        | .ok globals =>
          .ok { s.unplaced with globals := globals, supply := supply, phase := .between }
        | .error d => .error d) :=
  (Globals.mirrors_define name.lexeme meaning).elim (fun _ => .ok _) fun _ _ => .error

theorem mirrors_definePlain (plain : Plain) (name : Token) (ts : List Token) :
    Mirrors unplaced (s.definePlain plain name ts)
      (s.unplaced.definePlain plain name.unplaced (ts.map Token.unplaced)) := by
  unfold definePlain
  cases plain with
  | record =>
    exact (mirrors_recordOf name ts).elim (fun _ => mirrors_record name _ _)
      fun _ _ => .error
  | constant =>
    exact (Constant.mirrors_eval name ts).elim (fun _ => mirrors_record name _ _)
      fun _ _ => .error
  | memory =>
    exact (mirrors_regionOf name ts).elim (fun _ => mirrors_record name _ _)
      fun _ _ => .error

theorem mirrors_defineFunction (naming : Naming) (contract : Contract)
    (params : Option (List (String × Ty))) :
    Mirrors unplaced (s.defineFunction naming contract params)
      (s.unplaced.defineFunction naming.unplaced contract params) := by
  unfold defineFunction
  have count : s.unplaced.heads.length = s.heads.length := List.length_map ..
  simp only [count]
  refine (Globals.mirrors_define naming.name.lexeme _).elim (fun globals => ?_) fun _ _ => .error
  exact .of_eq (by simp [unplaced, Phase.unplaced, Head.unplaced, Naming.unplaced, Token.unplaced])

/-! ## One token -/

theorem mirrors_input (naming : Naming) (named : List (String × Ty)) (anonymous : List Ty)
    (t : Token) :
    Mirrors Phase.unplaced (input g naming named anonymous t)
      (input g.unplaced naming.unplaced named anonymous t.unplaced) := by
  unfold input
  rw [Token.unplaced_lexeme]
  split
  · rename_i name _ _
    refine (mirrors_checkPinName name t.place t.unplaced.place).elim (fun _ => ?_) fun _ _ => .error
    exact (Globals.mirrors_tyOf _).elim (fun _ => .ok _) fun _ _ => .error
  · exact (Globals.mirrors_tyOf _).elim (fun _ => .ok _) fun _ _ => .error

theorem mirrors_signature (naming : Naming) (named : List (String × Ty))
    (anonymous outputs : List Ty) :
    Mirrors Phase.unplaced (signature naming named anonymous outputs)
      (signature naming.unplaced named anonymous outputs) := by
  cases named with
  | nil => exact .ok _
  | cons =>
    cases anonymous with
    | nil => exact .ok _
    | cons => exact .error rfl

theorem mirrors_advance (t : Token) (phase : Phase) :
    Mirrors Phase.unplaced (advance g t phase) (advance g.unplaced t.unplaced phase.unplaced) := by
  cases phase with
  | between =>
    simp only [Phase.unplaced, advance, Token.unplaced_kind]
    split
    · split
      · exact .ok _
      · exact .ok _
    · exact .ok _
  | naming form opener =>
    refine .choice .rfl (fun _ => ?_) fun _ => .error rfl
    cases form with
    | plain => exact .ok _
    | function => exact .ok _
  | collecting plain naming tokens => exact .ok _
  | opening naming => exact .choice .rfl (fun _ => .ok _) fun _ => .error rfl
  | inputs naming named anonymous =>
    simp only [Phase.unplaced, advance, Token.unplaced_kind]
    split
    · exact .ok _
    · exact mirrors_input naming named anonymous t
    · exact .error rfl
  | outputs naming named anonymous outs =>
    simp only [Phase.unplaced, advance, Token.unplaced_kind, Token.unplaced_lexeme]
    split
    · exact mirrors_signature naming named anonymous outs
    · exact (Globals.mirrors_tyOf _).elim (fun _ => .ok _) fun _ _ => .error
    · exact .error rfl
  | body naming contract params depth =>
    simp only [Phase.unplaced, advance, Token.unplaced_kind]
    split <;> exact .ok _

/-- A token that ends no definition. -/
theorem mirrors_onward (s : Survey) (t : Token) :
    Mirrors unplaced
      (match advance s.globals t s.phase with
        | .ok next => .ok { s with phase := next }
        | .error d => .error d)
      (match advance s.unplaced.globals t.unplaced s.phase.unplaced with
        | .ok next => .ok { s.unplaced with phase := next }
        | .error d => .error d) :=
  (mirrors_advance t s.phase).elim (fun _ => .ok _) fun _ _ => .error

/-- **One token of the first reading does not depend on places.** -/
theorem mirrors_step (s : Survey) (t : Token) :
    Mirrors unplaced (s.step t) (s.unplaced.step t.unplaced) := by
  have onward := mirrors_onward s t
  have phase : s.unplaced.phase = s.phase.unplaced := rfl
  unfold step
  rw [Token.unplaced_kind, phase]
  cases here : s.phase with
  | collecting plain naming tokens =>
    rw [here] at onward
    have defined := mirrors_definePlain (s := s) plain naming.name tokens.reverse
    rw [List.map_reverse] at defined
    cases t.kind with
    | keyword k =>
      cases k with
      | semicolon => exact defined
      | _ => exact onward
    | _ => exact onward
  | body naming contract params depth =>
    rw [here] at onward
    match depth with
    | 1 =>
      cases t.kind with
      | keyword k =>
        cases k with
        | semicolon => exact mirrors_defineFunction naming contract params
        | _ => exact onward
      | _ => exact onward
    | 0 => exact onward
    | _ + 2 => exact onward
  | between | naming | opening | inputs | outputs =>
    rw [here] at onward
    exact onward

theorem mirrors_run (s : Survey) (ts : List Token) :
    Mirrors unplaced (s.run ts) (s.unplaced.run (ts.map Token.unplaced)) := by
  induction ts generalizing s with
  | nil => exact .ok _
  | cons t ts ih =>
    rw [List.map_cons, run, run]
    exact (mirrors_step s t).elim ih fun _ _ => .error

theorem mirrors_finish (s : Survey) (stop : Place) :
    Mirrors unplaced (s.finish stop) (s.unplaced.finish .builtin) := by
  have phase : s.unplaced.phase = s.phase.unplaced := rfl
  unfold finish
  rw [phase]
  cases s.phase with
  | between => exact .ok _
  | naming | collecting | opening | inputs | outputs | body => exact .error rfl

/-- **The definitions of a text do not depend on places.** -/
theorem mirrors_ofTokens (limits : Limits) (text : Scanned) :
    Mirrors unplaced (ofTokens limits text) (ofTokens limits text.unplaced) := by
  unfold ofTokens
  exact (mirrors_run (start limits) text.tokens).elim (fun s => mirrors_finish s text.stop)
    fun _ _ => .error

end Survey

end PinnedStack
