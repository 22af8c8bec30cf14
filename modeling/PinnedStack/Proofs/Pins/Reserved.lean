import PinnedStack.Proofs.Grammar.Reading
import PinnedStack.Proofs.Text.Names

/-!
# Pins have no names that are refused

* `PinNames` — a property of all names that are not refused for a pin. `Head.Named`, `Reader.Named` —
  the inputs of a function, and the pins in scope, have it; `Reader.named_run` says so at every point
  of the second reading of a text.
* `Head.Unreserved`, `Reader.Unreserved` — the inputs of a function, and the pins in scope, are not
  named like an operation, a keyword or a primitive type.
* `Reader.unreserved_run` — that is so at every point of the second reading of a text.
* `Reader.Unreserved.resolve_symbol` — so a word that names an operator means that operator.
-/

namespace PinnedStack

/-- No input has a reserved name. -/
def Head.Unreserved (h : Head) : Prop :=
  ∀ param ∈ h.signature.params.getD [], isReserved param.1 = false

theorem isReserved_of_checkPinName {name : String} {place : Place}
    (ok : checkPinName name place = .ok ()) : isReserved name = false := by
  unfold checkPinName at ok
  simp only at ok
  split at ok
  · cases ok
  · split at ok
    · cases ok
    · rename_i free
      exact Bool.eq_false_iff.2 free

/-- A property of all names that are not refused for a pin. -/
def PinNames (P : String → Prop) : Prop := ∀ name place, checkPinName name place = .ok () → P name

theorem pinNames_unreserved : PinNames (isReserved · = false) :=
  fun _ _ => isReserved_of_checkPinName

theorem pinNames_undotted : PinNames ('.' ∉ ·.toList) := by
  intro name place ok mem
  simp [checkPinName, mem] at ok

section Names

variable {P : String → Prop}

/-- The names of all inputs have the property. -/
def Head.Named (P : String → Prop) (h : Head) : Prop :=
  ∀ param ∈ h.signature.params.getD [], P param.1

/-- The first reading records no input whose name is refused. -/
theorem Survey.named_heads (names : PinNames P) {limits : Limits} {text : Scanned} {s : Survey}
    (ok : ofTokens limits text = .ok s) : ∀ h ∈ s.heads, h.Named P := by
  intro h mem param held
  obtain ⟨tokens, -, declared⟩ := exists_of_forall₂ (declares_texts ok) h mem
  obtain ⟨name, front, signature, paren, body, -, -, -, -, -, signs⟩ := declared
  generalize h.signature.params = params at signs held
  generalize h.signature.contract = contract at signs
  cases signs with
  | anonymous kind left right => cases held
  | named kind any left right =>
    obtain ⟨t, -, -, tyText, -, valid, -⟩ := exists_of_forall₂ left param held
    exact names _ _ valid

end Names

namespace Reader

/-- The names of the pins in scope have the property, and those of the inputs of the functions whose
text lies ahead. -/
structure Named (P : String → Prop) (r : Reader) : Prop where
  live : ∀ p ∈ r.supply.book.live, P p.name
  heads : ∀ h ∈ r.heads, h.Named P
  head : ∀ h opener, r.phase = .head h opener → h.Named P

/-- No pin in scope has a reserved name, and no input of a function whose text lies ahead. -/
structure Unreserved (r : Reader) : Prop where
  live : ∀ p ∈ r.supply.book.live, isReserved p.name = false
  heads : ∀ h ∈ r.heads, h.Unreserved
  head : ∀ h opener, r.phase = .head h opener → h.Unreserved

theorem unreserved_iff {r : Reader} : r.Unreserved ↔ r.Named (isReserved · = false) :=
  ⟨fun h => ⟨h.live, h.heads, h.head⟩, fun h => ⟨h.live, h.heads, h.head⟩⟩

theorem live_unpinAll (s : Supply) (pins : List Pin) :
    (unpinAll s pins).book.live ⊆ s.book.live := by
  unfold unpinAll
  generalize pins.reverse = ps
  induction ps generalizing s with
  | nil => exact fun _ mem => mem
  | cons p ps ih =>
    intro q mem
    exact List.mem_of_mem_eraseP (ih (s.unpin p.name).2 mem)

theorem live_close {r next : Reader} {b : OpenBlock} {outer : List OpenBlock}
    (closed : r.close b outer = some next) :
    next.supply.book.live ⊆ r.supply.book.live ∧ next.heads = r.heads ∧ next.phase = r.phase := by
  obtain ⟨frame, nodes⟩ := b
  cases frame with
  | loopCondition p label place => cases closed
  | whenTrue label place | whenFalse yes label place =>
    cases closed
    rw [add_supply, add_heads, add_phase]
    exact ⟨fun _ mem => mem, rfl, rfl⟩
  | loopBody p condition label place =>
    cases closed
    rw [add_supply, add_heads, add_phase]
    exact ⟨fun _ mem => List.mem_of_mem_eraseP mem, rfl, rfl⟩
  | bindBody pins place =>
    cases closed
    rw [add_supply, add_heads, add_phase]
    exact ⟨live_unpinAll r.supply pins, rfl, rfl⟩
  | function head opener firstSlot pins =>
    cases closed
    exact ⟨live_unpinAll r.supply pins, rfl, rfl⟩

/-- The pins that the inputs of a function are bound to have their names. -/
theorem named_bindParams {P : String → Prop} {s next : Supply} {place : Place} {params : List (String × Ty)}
    {pins : List Pin} (ok : bindParams s place params = .ok (pins, next))
    (given : ∀ param ∈ params, P param.1) (live : ∀ p ∈ s.book.live, P p.name) :
    ∀ p ∈ next.book.live, P p.name := by
  induction params generalizing s pins with
  | nil =>
    cases ok
    exact live
  | cons param rest ih =>
    obtain ⟨name, ty⟩ := param
    simp only [bindParams] at ok
    split at ok
    · cases ok
    · rename_i p middle here
      split at ok
      · rename_i tail
        cases ok
        obtain ⟨rfl, -, rfl⟩ := pin_eq_ok.1 here
        refine ih tail (fun q mem => given q (List.mem_cons_of_mem _ mem)) fun q mem => ?_
        rcases List.mem_cons.1 mem with rfl | mem
        · exact given _ (List.mem_cons_self ..)
        · exact live q mem
      · cases ok

/-- One token brings no pin into scope whose name is refused. -/
theorem named_moves {P : String → Prop} (names : PinNames P) {g : Globals} {r next : Reader}
    {t : Token} (h : r.Named P) (moves : Moves g r t next) : next.Named P := by
  cases moves with
  | leaf phase plain book nextLabel fits =>
    refine ⟨fun p mem => h.live p ?_, fun head mem => h.heads head ?_, fun head opener eq => ?_⟩
    · rw [add_supply] at mem
      exact book ▸ mem
    · rwa [add_heads] at mem
    · rw [add_phase] at eq
      exact h.head head opener eq
  | branch phase kind => exact ⟨h.live, h.heads, h.head⟩
  | loop phase kind => exact ⟨h.live, h.heads, nofun⟩
  | bind phase kind => exact ⟨h.live, h.heads, nofun⟩
  | stray phase kind blocks => exact h
  | close phase kind blocks closed =>
    obtain ⟨live, heads, same⟩ := live_close closed
    exact ⟨fun p mem => h.live p (live mem), heads ▸ h.heads, same ▸ h.head⟩
  | otherwise phase kind blocks => exact ⟨h.live, h.heads, h.head⟩
  | body phase kind blocks => exact ⟨h.live, h.heads, h.head⟩
  | function phase kind blocks heads =>
    have all := h.heads
    rw [heads] at all
    refine ⟨h.live, fun other mem => all other (List.mem_cons_of_mem _ mem), ?_⟩
    intro other opener eq
    cases eq
    exact all _ (List.mem_cons_self ..)
  | definition phase kind form blocks => exact ⟨h.live, h.heads, nofun⟩
  | inHead phase kind => exact h
  | headDone phase kind opened =>
    rename_i head opener
    obtain ⟨pins, supply, bound, rfl⟩ := openFunction_eq_ok.1 opened
    exact ⟨named_bindParams bound (h.head head opener phase) h.live, h.heads, nofun⟩
  | inPlain phase kind => exact h
  | plainDone phase kind => exact ⟨h.live, h.heads, nofun⟩
  | iterator phase kind bound | name phase kind bound =>
    have binds := bindName_eq_ok.1 bound
    refine ⟨fun q mem => ?_, h.heads, nofun⟩
    have held : q ∈ (_ : Pin) :: r.supply.book.live := binds.live_eq ▸ mem
    rcases List.mem_cons.1 held with rfl | mem
    · exact names _ _ binds.valid
    · exact h.live q mem
  | within phase kind =>
    refine ⟨fun p mem => h.live p ?_, fun head mem => h.heads head ?_, nofun⟩
    · change p ∈ (r.add _).supply.book.live at mem
      rwa [add_supply] at mem
    · change head ∈ (r.add _).heads at mem
      rwa [add_heads] at mem

/-- **No pin that a text brings into scope has a name that is refused.** -/
theorem named_run {P : String → Prop} (names : PinNames P) {limits : Limits} {text : Scanned}
    {survey : Survey} {r : Reader} {before : List Token}
    (surveyed : Survey.ofTokens limits text = .ok survey)
    (ok : run survey.globals (.start survey) before = .ok r) : r.Named P := by
  have begun : (start survey).Named P := by
    refine ⟨fun p mem => ?_, Survey.named_heads names surveyed, fun _ _ eq => nomatch eq⟩
    have empty : survey.supply.book = .empty limits.pinCapacity :=
      Survey.run_book (Survey.ofTokens_eq_ok surveyed).1
    change p ∈ survey.supply.book.live at mem
    rw [empty] at mem
    cases mem
  exact run_induct (named_moves names) begun ok

theorem unreserved_moves {g : Globals} {r next : Reader} {t : Token} (h : r.Unreserved)
    (moves : Moves g r t next) : next.Unreserved :=
  unreserved_iff.2 (named_moves pinNames_unreserved (unreserved_iff.1 h) moves)

/-- No pin that a text brings into scope has a reserved name. -/
theorem unreserved_run {limits : Limits} {text : Scanned} {survey : Survey} {r : Reader}
    {before : List Token} (surveyed : Survey.ofTokens limits text = .ok survey)
    (ok : run survey.globals (.start survey) before = .ok r) : r.Unreserved :=
  unreserved_iff.2 (named_run pinNames_unreserved surveyed ok)

/-- A word that names an operator means it wherever it stands. -/
theorem Unreserved.resolve_symbol {r : Reader} (h : r.Unreserved) (g : Globals) (op : Binary)
    (place : Place) : resolve g r.supply op.symbol place = .ok (.op (.binary op) place) := by
  have named : Op.builtin? op.symbol = some (.binary op) := by
    unfold Op.builtin?
    rw [Binary.ofSymbol?_symbol]
  have reserved : isReserved op.symbol = true := by
    unfold isReserved
    rw [named]
    rfl
  have absent : r.supply.find? op.symbol = none := by
    refine List.find?_eq_none.2 fun p mem same => ?_
    rw [← beq_iff_eq.1 same, h.live p mem] at reserved
    cases reserved
  have unmarked : withoutLast? '!' op.symbol = none := by cases op <;> decide
  unfold resolve
  rw [absent, unmarked, named]
  rfl

end Reader

end PinnedStack
