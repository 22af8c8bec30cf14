import Mathlib.Data.List.Forall2
import PinnedStack.Proofs.Tree.Agreement

/-!
# Both readings find the same definitions

* `textsOf` — the tokens of each definition, by how a reading gets on; `Survey.trace` and
  `Reader.trace` record that, and `Agree.trace_eq` says that both readings get on alike.
* `Declares` — the tokens of a function give its name and its signature. `Survey.declares_texts`: the
  first reading records just what they give.
* `Survey.Known` — every function is found under its name, and no two have one name.
-/

namespace PinnedStack

/-! ## The tokens of a definition -/

/-- The tokens of each definition, given the stage behind every token. A definition goes from the
token that leaves the outside to the one that comes back; `opened` is what was read of the one that
is open. -/
def textsOf (opened : List Token) : List (Token × Stage) → List (List Token)
  | [] => []
  | (t, stage) :: rest =>
      if stage = .between then
        if opened = [] then textsOf [] rest else (opened ++ [t]) :: textsOf [] rest
      else textsOf (opened ++ [t]) rest

/-- Every token with the stage of the first reading behind it, up to the first fault. -/
def Survey.trace (s : Survey) : List Token → List (Token × Stage)
  | [] => []
  | t :: ts =>
      match s.step t with
      | .ok next => (t, next.phase.stage) :: next.trace ts
      | .error _ => []

/-- Every token with the stage of the second reading behind it, up to the first fault. -/
def Reader.trace (g : Globals) (r : Reader) : List Token → List (Token × Stage)
  | [] => []
  | t :: ts =>
      match Reader.step g r t with
      | .ok next => (t, next.stage) :: Reader.trace g next ts
      | .error _ => []

/-- The tokens that the first reading takes for each definition. -/
def Survey.texts (s : Survey) (ts : List Token) : List (List Token) := textsOf [] (s.trace ts)

/-- The tokens that the second reading takes for each definition. -/
def Reader.texts (g : Globals) (r : Reader) (ts : List Token) : List (List Token) :=
  textsOf [] (Reader.trace g r ts)

/-- Both readings are at the same stage behind every token. -/
theorem Agree.trace_eq {s s' : Survey} {r r' : Reader} {g : Globals} {ts : List Token}
    {callees : List Call} {capacity : Nat} (h : Agree s r) (hg : g.Sound callees)
    (nested : r.Nested callees capacity) (first : s.run ts = .ok s')
    (second : Reader.run g r ts = .ok r') : Reader.trace g r ts = s.trace ts := by
  induction ts generalizing s r with
  | nil => rfl
  | cons t ts ih =>
    simp only [Survey.run] at first
    simp only [Reader.run] at second
    split at first
    · rename_i s₁ one
      split at second
      · rename_i r₁ two
        have moves := Reader.step_moves two
        have agree := h.step nested one moves
        simp only [Reader.trace, Survey.trace, one, two]
        rw [agree.stage, ih agree (Reader.nested_moves hg nested moves) first second]
      · cases second
    · cases first

/-! ## Names stay what they are -/

/-- All that one set of names holds is in another. -/
def Globals.Within (g more : Globals) : Prop :=
  ∀ name meaning, g.find? name = some meaning → more.find? name = some meaning

namespace Globals

variable {g more : Globals}

theorem Within.refl (g : Globals) : g.Within g := fun _ _ found => found

theorem Within.trans {most : Globals} (h : g.Within more) (k : more.Within most) :
    g.Within most := fun name meaning found => k name meaning (h name meaning found)

theorem find?_eq_none_of_define {next : Globals} {name : String} {meaning : Meaning} {place : Place}
    (defined : g.define name meaning place = .ok next) : g.find? name = none := by
  simp [find?, (define_eq_ok.1 defined).2.2.1]

theorem within_of_define {next : Globals} {name : String} {meaning : Meaning} {place : Place}
    (defined : g.define name meaning place = .ok next) : g.Within next := by
  intro other held found
  rw [find?_define defined]
  split
  · rename_i same
    rw [← same, find?_eq_none_of_define defined] at found
    cases found
  · exact found

theorem Within.record? (h : g.Within more) {name : String} {r : Record}
    (found : g.record? name = some r) : more.record? name = some r :=
  record?_eq_some.2 (h _ _ (record?_eq_some.1 found))

theorem Within.tyNamed (h : g.Within more) {name : String} {place : Place} {ty : Ty}
    (ok : g.tyNamed name place = .ok ty) : more.tyNamed name place = .ok ty := by
  obtain number | pointer | ⟨notNumber, notPointer, any, r, known, eq⟩ := tyNamed_eq_ok.1 ok
  · exact tyNamed_eq_ok.2 (.inl number)
  · exact tyNamed_eq_ok.2 (.inr (.inl pointer))
  · exact tyNamed_eq_ok.2 (.inr (.inr ⟨notNumber, notPointer, any, r, h.record? known, eq⟩))

/-- A piece of text keeps its type when more is defined. -/
theorem Within.tyOf (h : g.Within more) {text : String} {place : Place} {ty : Ty}
    (ok : g.tyOf text place = .ok ty) : more.tyOf text place = .ok ty := by
  rw [tyOf_eq_ok] at ok ⊢
  generalize text.toList = chars at ok ⊢
  induction ok with
  | named plain named => exact .named plain (h.tyNamed named)
  | pointer _ inner => exact .pointer inner

end Globals

/-! ## What the tokens of a function give -/

/-- A word that gives a type. -/
def Globals.GivesType (g : Globals) (t : Token) (ty : Ty) : Prop :=
  t.kind = .word ∧ g.tyOf t.lexeme t.place = .ok ty

/-- A word that gives the type of an input without a name. -/
def Globals.GivesInput (g : Globals) (t : Token) (ty : Ty) : Prop :=
  splitAtFirst? ':' t.lexeme = none ∧ g.GivesType t ty

/-- A word that gives the name and the type of an input. -/
def Globals.GivesParam (g : Globals) (t : Token) (param : String × Ty) : Prop :=
  t.kind = .word ∧ ∃ tyText, splitAtFirst? ':' t.lexeme = some (param.1, tyText)
    ∧ checkPinName param.1 t.place = .ok () ∧ g.tyOf tyText t.place = .ok param.2

/-- Tokens that give a contract, and names to the inputs or not. -/
inductive Signs (g : Globals) : List Token → Contract → Option (List (String × Ty)) → Prop where
  | anonymous {ins outs : List Token} {dashes : Token} {inputs outputs : List Ty}
      (kind : dashes.kind = .keyword .dashes) (left : List.Forall₂ g.GivesInput ins inputs)
      (right : List.Forall₂ g.GivesType outs outputs) :
      Signs g (ins ++ dashes :: outs) ⟨inputs, outputs⟩ none
  | named {ins outs : List Token} {dashes : Token} {params : List (String × Ty)}
      {outputs : List Ty} (kind : dashes.kind = .keyword .dashes) (any : params ≠ [])
      (left : List.Forall₂ g.GivesParam ins params)
      (right : List.Forall₂ g.GivesType outs outputs) :
      Signs g (ins ++ dashes :: outs) ⟨params.map (·.2), outputs⟩ (some params)

/-- The start of a function's text: `:`, its name and `(`. -/
structure Heads (name : Token) (front : List Token) : Prop where
  text : ∃ opener paren, front = [opener, name, paren] ∧ opener.kind = .keyword .colon
    ∧ paren.kind = .keyword .openParen
  word : name.kind = .word

/-- The tokens of a function give the name and the signature that are recorded of it. -/
def Declares (g : Globals) (text : List Token) (h : Head) : Prop :=
  ∃ name front signature paren body, text = front ++ (signature ++ paren :: body)
    ∧ Heads name front ∧ paren.kind = .keyword .closeParen
    ∧ h.name = name.lexeme ∧ h.place = name.place
    ∧ Signs g signature h.signature.contract h.signature.params

def isFunctionText : List Token → Bool
  | opener :: _ => opener.kind = .keyword .colon
  | [] => false

section Within

variable {g more : Globals}

theorem Globals.Within.givesType (h : g.Within more) {t : Token} {ty : Ty}
    (gives : g.GivesType t ty) : more.GivesType t ty := ⟨gives.1, h.tyOf gives.2⟩

theorem Globals.Within.givesInput (h : g.Within more) {t : Token} {ty : Ty}
    (gives : g.GivesInput t ty) : more.GivesInput t ty := ⟨gives.1, h.givesType gives.2⟩

theorem Globals.Within.givesParam (h : g.Within more) {t : Token} {param : String × Ty}
    (gives : g.GivesParam t param) : more.GivesParam t param := by
  obtain ⟨word, tyText, split, name, ty⟩ := gives
  exact ⟨word, tyText, split, name, h.tyOf ty⟩

theorem Signs.mono (h : g.Within more) {ts : List Token} {contract : Contract}
    {params : Option (List (String × Ty))} (signs : Signs g ts contract params) :
    Signs more ts contract params := by
  cases signs with
  | anonymous kind left right =>
    exact .anonymous kind (left.imp fun _ _ => h.givesInput) (right.imp fun _ _ => h.givesType)
  | named kind any left right =>
    exact .named kind any (left.imp fun _ _ => h.givesParam) (right.imp fun _ _ => h.givesType)

theorem Declares.mono (h : g.Within more) {text : List Token} {head : Head}
    (declares : Declares g text head) : Declares more text head := by
  obtain ⟨name, front, signature, paren, body, eq, start, close, named, place, signs⟩ := declares
  exact ⟨name, front, signature, paren, body, eq, start, close, named, place, signs.mono h⟩

theorem Declares.isFunctionText {text : List Token} {head : Head} (declares : Declares g text head) :
    isFunctionText text = true := by
  obtain ⟨name, front, signature, paren, body, rfl, ⟨⟨opener, open_, rfl, kind, -⟩, -⟩, -⟩ :=
    declares
  simp [PinnedStack.isFunctionText, kind]

end Within

namespace Survey

/-- What the open definition's tokens give so far, whether the inputs have names or not. -/
def Takes (g : Globals) (ins : List Token) (named : List (String × Ty)) (anonymous : List Ty) :
    Prop :=
  (anonymous = [] → List.Forall₂ g.GivesParam ins named)
    ∧ (named = [] → List.Forall₂ g.GivesInput ins anonymous)

/-- What is in hand of a definition is what its tokens give. -/
def Phase.Reads (g : Globals) (opened : List Token) : Survey.Phase → Prop
  | .between => opened = []
  | .naming form _ => ∃ opener, opened = [opener] ∧ opener.kind = .keyword form.keyword
  | .collecting plain _ _ =>
      ∃ opener rest, opened = opener :: rest ∧ opener.kind = .keyword plain.keyword
  | .opening about =>
      ∃ opener, opened = [opener, about.name] ∧ opener.kind = .keyword .colon
        ∧ about.name.kind = .word
  | .inputs about named anonymous =>
      ∃ front ins, opened = front ++ ins ∧ Heads about.name front ∧ Takes g ins named anonymous
  | .outputs about named anonymous given =>
      ∃ front ins dashes outs, opened = front ++ (ins ++ dashes :: outs) ∧ Heads about.name front
        ∧ dashes.kind = .keyword .dashes ∧ Takes g ins named anonymous
        ∧ List.Forall₂ g.GivesType outs given
  | .body about contract params _ =>
      ∃ front signature paren body, opened = front ++ (signature ++ paren :: body)
        ∧ Heads about.name front ∧ paren.kind = .keyword .closeParen
        ∧ Signs g signature contract params

variable {s next : Survey} {g : Globals} {t : Token} {opened : List Token}

/-- A token that ends no definition is taken for what it gives. -/
theorem advance_reads {phase after : Survey.Phase} (h : phase.Reads g opened)
    (ok : advance g t phase = .ok after) :
    after = .between ∧ opened = [] ∨ after ≠ .between ∧ after.Reads g (opened ++ [t]) := by
  cases advance_eq_ok.1 ok with
  | between => exact .inl ⟨rfl, h⟩
  | @opener k form kind defines =>
    obtain rfl : opened = [] := h
    refine .inr ⟨by simp, t, rfl, ?_⟩
    rw [kind]
    cases k <;> cases defines <;> rfl
  | plainName =>
    obtain ⟨first, rfl, start⟩ := h
    exact .inr ⟨by simp, first, [t], rfl, start⟩
  | functionName word =>
    obtain ⟨first, rfl, start⟩ := h
    exact .inr ⟨by simp, first, rfl, start, word⟩
  | collected =>
    obtain ⟨first, rest, rfl, start⟩ := h
    exact .inr ⟨by simp, first, rest ++ [t], rfl, start⟩
  | openParen paren =>
    obtain ⟨first, rfl, start, word⟩ := h
    exact .inr ⟨by simp, _, [], (List.append_nil _).symm, ⟨⟨first, t, rfl, start, paren⟩, word⟩,
      fun _ => .nil, fun _ => .nil⟩
  | namedInput word split valid typed =>
    obtain ⟨front, ins, rfl, start, params, -⟩ := h
    refine .inr ⟨by simp, front, ins ++ [t], List.append_assoc .., start, fun none => ?_, by simp⟩
    exact List.rel_append (params none) (.cons ⟨word, _, split, valid, typed⟩ .nil)
  | anonymousInput word whole typed =>
    obtain ⟨front, ins, rfl, start, -, types⟩ := h
    refine .inr ⟨by simp, front, ins ++ [t], List.append_assoc .., start, by simp, fun none => ?_⟩
    exact List.rel_append (types none) (.cons ⟨whole, word, typed⟩ .nil)
  | dashes kind =>
    obtain ⟨front, ins, rfl, start, takes⟩ := h
    exact .inr ⟨by simp, front, ins, t, [], by simp, start, kind, takes, .nil⟩
  | output word typed =>
    obtain ⟨front, ins, dashes, outs, rfl, start, kind, takes, right⟩ := h
    refine .inr ⟨by simp, front, ins, dashes, outs ++ [t], by simp, start, kind, takes, ?_⟩
    exact List.rel_append right (.cons ⟨word, typed⟩ .nil)
  | anonymous close =>
    obtain ⟨front, ins, dashes, outs, rfl, start, kind, ⟨-, types⟩, right⟩ := h
    exact .inr ⟨by simp, front, _, t, [], List.append_assoc .., start, close,
      .anonymous kind (types rfl) right⟩
  | named any close =>
    obtain ⟨front, ins, dashes, outs, rfl, start, kind, ⟨params, -⟩, right⟩ := h
    exact .inr ⟨by simp, front, _, t, [], List.append_assoc .., start, close,
      .named kind any (params rfl) right⟩
  | block | semicolon | inside =>
    obtain ⟨front, signature, paren, body, rfl, start, close, signs⟩ := h
    exact .inr ⟨by simp, front, signature, paren, body ++ [t], by simp, start, close, signs⟩

/-- What a token does to the definition that is open, and to what is recorded. -/
inductive Turns (opened : List Token) (s : Survey) (t : Token) (next : Survey) : Prop where
  | outside (empty : opened = []) (phase : next.phase = .between) (heads : next.heads = s.heads)
  | inside (phase : next.phase ≠ .between)
      (reads : next.phase.Reads next.globals (opened ++ [t])) (heads : next.heads = s.heads)
  | plain (any : opened ≠ []) (phase : next.phase = .between)
      (other : isFunctionText (opened ++ [t]) = false) (heads : next.heads = s.heads)
  | function (any : opened ≠ []) (phase : next.phase = .between) (h : Head)
      (declares : Declares next.globals (opened ++ [t]) h) (heads : next.heads = s.heads ++ [h])
      (fresh : s.globals.find? h.name = none)
      (found : next.globals.find? h.name = some (.function h.signature))

theorem step_turns (h : s.phase.Reads s.globals opened) (ok : s.step t = .ok next) :
    Turns opened s t next ∧ s.globals.Within next.globals := by
  cases step_moves ok with
  | @plain _ plain naming tokens phase kind ends =>
    rw [phase] at h
    obtain ⟨opener, rest, rfl, start⟩ := h
    obtain ⟨supply, meaning, globals, -, defined, rfl⟩ := definePlain_eq_ok.1 ends
    refine ⟨.plain (by simp) rfl ?_ rfl, Globals.within_of_define defined⟩
    simp only [List.cons_append, isFunctionText, start, decide_eq_false_iff_not]
    cases plain <;> simp [Plain.keyword]
  | @function _ naming contract params phase kind ends =>
    rw [phase] at h
    obtain ⟨front, signature, paren, body, rfl, start, close, signs⟩ := h
    obtain ⟨globals, defined, rfl⟩ := defineFunction_eq_ok.1 ends
    have within : s.globals.Within globals := Globals.within_of_define defined
    refine ⟨.function (by simp) rfl _ ?_ rfl (Globals.find?_eq_none_of_define defined) ?_, within⟩
    · exact ⟨naming.name, front, signature, paren, body ++ [t], by simp, start, close, rfl, rfl,
        signs.mono within⟩
    · simp [Globals.find?_define defined]
  | onward advanced =>
    refine ⟨?_, .refl _⟩
    rcases advance_reads h advanced with ⟨phase, empty⟩ | ⟨phase, reads⟩
    · exact .outside empty phase rfl
    · exact .inside phase reads rfl

theorem Phase.stage_eq_between {phase : Survey.Phase} :
    phase.stage = .between ↔ phase = .between := by
  cases phase with
  | naming form _ => cases form <;> simp [Phase.stage]
  | _ => simp [Phase.stage]

/-- The functions that are recorded are those that their tokens declare, in order. -/
theorem run_declares {ts : List Token} (h : s.phase.Reads s.globals opened)
    (ok : s.run ts = .ok next) :
    s.globals.Within next.globals ∧ ∃ more, next.heads = s.heads ++ more
      ∧ List.Forall₂ (Declares next.globals) ((textsOf opened (s.trace ts)).filter isFunctionText)
        more := by
  induction ts generalizing s opened with
  | nil =>
    cases ok
    exact ⟨.refl _, [], (List.append_nil _).symm, .nil⟩
  | cons t ts ih =>
    simp only [run] at ok
    split at ok
    · rename_i one here
      obtain ⟨turns, within⟩ := step_turns h here
      simp only [trace, here, textsOf]
      cases turns with
      | outside empty phase heads =>
        obtain ⟨onward, more, eq, all⟩ := ih (by rw [phase]; exact rfl) ok
        refine ⟨within.trans onward, more, heads ▸ eq, ?_⟩
        rw [if_pos (Phase.stage_eq_between.2 phase), if_pos empty]
        exact all
      | inside phase reads heads =>
        obtain ⟨onward, more, eq, all⟩ := ih reads ok
        refine ⟨within.trans onward, more, heads ▸ eq, ?_⟩
        rw [if_neg (mt Phase.stage_eq_between.1 phase)]
        exact all
      | plain any phase other heads =>
        obtain ⟨onward, more, eq, all⟩ := ih (by rw [phase]; exact rfl) ok
        refine ⟨within.trans onward, more, heads ▸ eq, ?_⟩
        rw [if_pos (Phase.stage_eq_between.2 phase), if_neg any,
          List.filter_cons_of_neg (by simp [other])]
        exact all
      | function any phase head declares heads fresh found =>
        obtain ⟨onward, more, eq, all⟩ := ih (by rw [phase]; exact rfl) ok
        refine ⟨within.trans onward, head :: more, by rw [eq, heads, List.append_assoc]; rfl, ?_⟩
        rw [if_pos (Phase.stage_eq_between.2 phase), if_neg any,
          List.filter_cons_of_pos declares.isFunctionText]
        exact .cons (declares.mono onward) all
    · cases ok

/-- **The first reading records a function for each text that declares one**, in order, with the name
and the signature that the text gives. -/
theorem declares_texts {limits : Limits} {text : Scanned} (ok : ofTokens limits text = .ok s) :
    List.Forall₂ (Declares s.globals)
      (((start limits).texts text.tokens).filter isFunctionText) s.heads := by
  have start : (start limits).phase.Reads (start limits).globals [] := rfl
  obtain ⟨-, more, eq, all⟩ := run_declares start (ofTokens_eq_ok ok).1
  obtain rfl : s.heads = more := eq
  exact all

/-- Every function that is recorded is found under its name, which no other has. -/
structure Known (s : Survey) : Prop where
  found : ∀ h ∈ s.heads, s.globals.find? h.name = some (.function h.signature)
  names : (s.heads.map (·.name)).Nodup

theorem Known.mono (h : s.Known) (within : s.globals.Within next.globals)
    (heads : next.heads = s.heads) : next.Known := by
  refine ⟨fun head mem => within _ _ (h.found head (heads ▸ mem)), ?_⟩
  rw [heads]
  exact h.names

theorem Turns.known (turns : Turns opened s t next) (within : s.globals.Within next.globals)
    (h : s.Known) : next.Known := by
  cases turns with
  | outside empty phase heads => exact h.mono within heads
  | inside phase reads heads => exact h.mono within heads
  | plain any phase other heads => exact h.mono within heads
  | function any phase head declares heads fresh found =>
    have others : head.name ∉ s.heads.map (·.name) := by
      intro mem
      obtain ⟨other, here, same⟩ := List.mem_map.1 mem
      rw [← same, h.found other here] at fresh
      cases fresh
    refine ⟨?_, ?_⟩
    · intro other mem
      rw [heads] at mem
      rcases List.mem_append.1 mem with mem | mem
      · exact within _ _ (h.found other mem)
      · exact List.mem_singleton.1 mem ▸ found
    · rw [heads, List.map_append]
      refine List.nodup_append.2 ⟨h.names, by simp, ?_⟩
      rintro a here b there rfl
      exact others (by simpa [List.mem_singleton.1 there] using here)

theorem Turns.reads (turns : Turns opened s t next) :
    ∃ opened, next.phase.Reads next.globals opened := by
  cases turns with
  | outside _ phase | plain _ phase | function _ phase => exact ⟨[], by rw [phase]; exact rfl⟩
  | inside _ reads => exact ⟨_, reads⟩

theorem run_known {ts : List Token} (reads : s.phase.Reads s.globals opened) (h : s.Known)
    (ok : s.run ts = .ok next) : next.Known := by
  induction ts generalizing s opened with
  | nil =>
    cases ok
    exact h
  | cons t ts ih =>
    simp only [run] at ok
    split at ok
    · rename_i one here
      obtain ⟨turns, within⟩ := step_turns reads here
      obtain ⟨_, onward⟩ := turns.reads
      exact ih onward (turns.known within h) ok
    · cases ok

/-- Every function of a text is found under its name, which no other has. -/
theorem ofTokens_known {limits : Limits} {text : Scanned} (ok : ofTokens limits text = .ok s) :
    s.Known := by
  have reads : (start limits).phase.Reads (start limits).globals [] := rfl
  exact run_known reads ⟨by simp [start], by simp [start]⟩ (ofTokens_eq_ok ok).1

end Survey

end PinnedStack
