import PinnedStack.Proofs.Typing.Held

/-!
# Which value a runtime pin gets its type from

* `Visit.Settled` — whose type a use of a runtime pin sees: that of the first pin of its name in the
  same `bind`.
* `UsesSettled` — all uses in some nodes are settled, wherever the notes of a scope are held.
  `Builds.usesSettled`, `Elaborates.usesSettled` — so are those in what statements and items stand
  for.
* `Program.tyOf_eq_ok_iff_takenBy` — so it is in a program. `repeated_name_mistyped` — this need not
  be the type of the pin's own value.
-/

namespace PinnedStack

open Token (Key Word)

variable {g : Globals} {tokens : List Token}

/-- A use of a runtime pin sees the type of the value that the first pin of its name took in the
same `bind`. -/
def Visit.Settled (g : Globals) (tokens : List Token) (before : List Visit) (v : Visit) : Prop :=
  ∀ p, v.node.uses p = true → p.ty = .runtime →
    ∃ own pins first, takenBy before p = some own ∧ BoundTogether g tokens before pins ∧ p ∈ pins
      ∧ pins.find? p.isNamesake = some first
      ∧ ∀ place ty, v.known.tyOf p place = .ok ty ↔ takenBy before first = some ty

/-! ## Visits -/

section Bodies

variable {callees : List Call} {scope : List Pin} {first stop : Nat} {nodes : List Node}

/-- Every visit, given those before it, is settled. -/
def AllSettled (g : Globals) (tokens : List Token) : List Visit → List Visit → Prop
  | _, [] => True
  | before, v :: vs => v.Settled g tokens before ∧ AllSettled g tokens (before ++ [v]) vs

theorem AllSettled.append {before xs ys : List Visit} (hx : AllSettled g tokens before xs)
    (hy : AllSettled g tokens (before ++ xs) ys) : AllSettled g tokens before (xs ++ ys) := by
  induction xs generalizing before with
  | nil => simpa using hy
  | cons v xs ih => exact ⟨hx.1, ih hx.2 (by simpa using hy)⟩

theorem AllSettled.of_append {before xs ys : List Visit} {v : Visit}
    (h : AllSettled g tokens before (xs ++ v :: ys)) : v.Settled g tokens (before ++ xs) := by
  induction xs generalizing before with
  | nil => simpa using h.1
  | cons w xs ih => simpa using ih h.2

theorem Visit.settled_of_other {before : List Visit} {v : Visit} (other : ∀ p, v.node.uses p = false) :
    v.Settled g tokens before := fun p use => by
  rw [other p] at use
  cases use

theorem AllSettled.of_other {before vs : List Visit} (other : ∀ v ∈ vs, ∀ p, v.node.uses p = false) :
    AllSettled g tokens before vs := by
  induction vs generalizing before with
  | nil => trivial
  | cons v vs ih =>
    exact ⟨Visit.settled_of_other (other v (List.mem_cons_self ..)),
      ih fun w mem => other w (List.mem_cons_of_mem _ mem)⟩

/-- A use of a pin in scope is settled. -/
theorem Held.settled {before : List Visit} {v : Visit}
    (held : Held g tokens before scope v.known.sightings.seen)
    (inScope : ∀ p, v.node.uses p = true → scope.find? (·.name == p.name) = some p) :
    v.Settled g tokens before := by
  intro p use runtime
  have untyped : p.ty.isRuntime = true := Ty.isRuntime_iff.2 runtime
  obtain ⟨pins, first, together, mem, eq, own, seen⟩ := held.find? (inScope p use) untyped
  obtain ⟨ty, taken⟩ := Option.isSome_iff_exists.1 own
  refine ⟨ty, pins, first, taken, together, mem, eq, fun place ty => ?_⟩
  have current : v.known.sightings.current? p.name = takenBy before first := seen
  unfold Knowledge.tyOf
  rw [if_pos untyped, current]
  cases takenBy before first <;> simp

/-! ## Nodes -/

/-- Wherever the notes of a scope are held, all visits to some nodes are settled. -/
def UsesSettled (g : Globals) (tokens : List Token) (scope : List Pin) (nodes : List Node) : Prop :=
  ∀ before offset k, Held g tokens before scope k.sightings.seen →
    AllSettled g tokens before (visitsAll nodes offset k)

theorem UsesSettled.nil : UsesSettled g tokens scope [] := fun _ _ _ _ => trivial

/-- The pins in scope have slots below those that the first nodes bind, which therefore leave their
notes alone. -/
theorem UsesSettled.append {xs ys : List Node} (left : Scoped callees scope first stop xs)
    (below : ∀ p ∈ scope, p.slot < first) (hx : UsesSettled g tokens scope xs)
    (hy : UsesSettled g tokens scope ys) : UsesSettled g tokens scope (xs ++ ys) := by
  intro before offset k held
  rw [visitsAll_append]
  refine (hx before offset k held).append ?_
  split
  · rename_i middle here
    refine hy _ _ _ ?_
    rw [left.sightings_eq here]
    exact held.append below (left.noneBelow offset k)
  · trivial

/-- A node with others inside is no use of a pin, and binds none in front of them. -/
theorem AllSettled.node {before vs : List Visit} {v : Visit}
    (other : ∀ p, v.node.uses p = false) (rest : AllSettled g tokens (before ++ [v]) vs) :
    AllSettled g tokens before (v :: vs) := ⟨Visit.settled_of_other other, rest⟩

theorem Held.node {before : List Visit} {v : Visit} {seen : List (String × Ty)}
    (held : Held g tokens before scope seen) (below : ∀ p ∈ scope, p.slot < first)
    (other : ∀ p place, v.node ≠ .op (.pin p) place) : Held g tokens (before ++ [v]) scope seen :=
  held.append below fun w mem p place node => by
    obtain rfl := List.mem_singleton.1 mem
    exact absurd node (other p place)

theorem UsesSettled.leaf {node : Node} (fits : node.Fits callees scope) :
    UsesSettled g tokens scope [node] := by
  intro before offset k held
  rw [visitsAll_singleton]
  cases node with
  | op op place =>
    refine ⟨held.settled (v := ⟨.op op place, k, offset⟩) fun p use => ?_, trivial⟩
    unfold Node.uses at use
    split at use
    · rename_i q _ eq
      obtain rfl : q = p := by simpa using use
      cases eq
      exact fits
    · rename_i q _ eq
      obtain rfl : q = p := by simpa using use
      cases eq
      exact fits
    · cases use
  | call => exact .node (by simp [Node.uses]) trivial
  | ifTrue | ifFalse | ifElse | loop => exact fits.elim

section Branches

variable {yes no body : List Node} {label : Nat} {place : Place}

theorem UsesSettled.ifTrue (below : ∀ p ∈ scope, p.slot < first)
    (inner : UsesSettled g tokens scope body) :
    UsesSettled g tokens scope [.ifTrue body label place] := by
  intro before offset k held
  rw [visitsAll_singleton]
  refine .node (by simp [Node.uses]) ?_
  split
  · exact inner _ _ _ (held.node below (by simp))
  · trivial

theorem UsesSettled.ifFalse (below : ∀ p ∈ scope, p.slot < first)
    (inner : UsesSettled g tokens scope body) :
    UsesSettled g tokens scope [.ifFalse body label place] := by
  intro before offset k held
  rw [visitsAll_singleton]
  refine .node (by simp [Node.uses]) ?_
  split
  · exact inner _ _ _ (held.node below (by simp))
  · trivial

theorem UsesSettled.ifElse (left : Scoped callees scope first stop yes)
    (below : ∀ p ∈ scope, p.slot < first) (hyes : UsesSettled g tokens scope yes)
    (hno : UsesSettled g tokens scope no) :
    UsesSettled g tokens scope [.ifElse yes no label place] := by
  intro before offset k held
  rw [visitsAll_singleton]
  refine .node (by simp [Node.uses]) ?_
  split
  · have here := held.node below (v := ⟨.ifElse yes no label place, k, offset⟩) (by simp)
    refine AllSettled.append (hyes _ _ _ here) ?_
    split
    · rename_i afterYes arm
      refine hno _ _ _ ?_
      have same := left.sightings_eq arm
      rw [same]
      exact here.append below (left.noneBelow _ _)
    · trivial
  · trivial

end Branches

theorem Knowledge.sightings_enter {k bound start : Knowledge} {p : Pin} {place : Place}
    (static : p.ty.isRuntime = false) (ok : k.enter p place = .ok (bound, start)) :
    start.sightings = k.sightings := by
  simp only [enter, Except.bind_eq_ok, bindPin_eq_ok static, pushPin_eq_ok] at ok
  obtain ⟨_, ⟨rest, -, rfl⟩, _, ⟨ty, -, rfl⟩, eq⟩ := ok
  cases eq
  rfl

theorem Knowledge.sightings_proceed {bound tested round : Knowledge} {place : Place}
    (ok : bound.proceed tested place = .ok round) : round.sightings = tested.sightings := by
  simp only [proceed, Except.bind_eq_ok] at ok
  obtain ⟨s, -, _, -, eq⟩ := ok
  cases eq
  rfl

theorem UsesSettled.loop {p : Pin} {condition body : List Node} {label : Nat} {place : Place}
    (sound : p.ty.Sound)
    (left : Scoped callees (p :: scope) (p.slot + p.ty.width) stop condition)
    (below : ∀ q ∈ scope, q.slot < p.slot) (test : UsesSettled g tokens (p :: scope) condition)
    (round : UsesSettled g tokens (p :: scope) body) :
    UsesSettled g tokens scope [.loop p condition body label place] := by
  intro before offset k held
  rw [visitsAll_singleton]
  have static := sound.isRuntime_eq_false
  have within : ∀ q ∈ p :: scope, q.slot < p.slot + p.ty.width := by
    have wide := sound.width_pos
    refine List.forall_mem_cons.2 ⟨by omega, fun q mem => ?_⟩
    have := below q mem
    omega
  refine .node (by simp [Node.uses]) ?_
  split
  · rename_i bound start entered
    have same := Knowledge.sightings_enter static entered
    have inside : Held g tokens _ (p :: scope) start.sightings.seen := .static static
      (same.symm ▸ held.node below (v := ⟨.loop p condition body label place, k, offset⟩) (by simp))
    refine AllSettled.append (test _ _ _ inside) ?_
    split
    · rename_i tested ran
      split
      · rename_i turned onward
        refine round _ _ _ ?_
        rw [Knowledge.sightings_proceed onward, left.sightings_eq ran]
        exact inside.append within (left.noneBelow _ _)
      · trivial
    · trivial
  · trivial

/-- Nodes between the binding and the release of some pins are visited where they are bound. -/
theorem AllSettled.between {before : List Visit} {k : Knowledge} {offset : Nat} {pins : List Pin}
    {body : List Node} {place : Place}
    (inner : ∀ bound, verifyAll (Reader.pinNodes pins place) k = .ok bound → ∀ offset',
      AllSettled g tokens (before ++ visitsAll (Reader.pinNodes pins place) offset k)
        (visitsAll body offset' bound)) :
    AllSettled g tokens before
      (visitsAll (Reader.pinNodes pins place ++ body ++ Reader.unpinNodes pins place) offset k) := by
  rw [List.append_assoc, visitsAll_append]
  refine AllSettled.append (AllSettled.of_other fun v mem p => ?_) ?_
  · obtain ⟨q, -, node⟩ := visitsAll_pins v mem
    simp [Node.uses, node]
  · split
    · rename_i bound pinned
      rw [visitsAll_append]
      refine (inner bound pinned _).append ?_
      split
      · refine AllSettled.of_other fun v mem p => ?_
        obtain ⟨q, node⟩ := visitsAll_unpins v mem
        simp [Node.uses, node]
      · trivial
    · trivial

theorem UsesSettled.bind {pins : List Pin} {body : List Node} (below : ∀ p ∈ scope, p.slot < first)
    (fits : ∀ p ∈ pins, p.Fits) (laid : Pin.Laid first pins stop) {opener : Key .bind}
    {names : List Word} {split : Key .within}
    (spelled : opener.1 :: (names.unattach ++ [split.1]) <:+: tokens)
    (named : List.Forall₂ (fun t p => Names g t .runtime p.name p.ty) names.unattach pins)
    (inner : UsesSettled g tokens (pins.reverse ++ scope) body) :
    UsesSettled g tokens scope (Reader.pinNodes pins opener.1.place ++ body
      ++ Reader.unpinNodes pins opener.1.place) := fun _ _ _ held =>
  .between fun _ pinned _ => inner _ _ _ (held.pinNodes below fits laid spelled named pinned)

/-- The body of a function with inputs that have types of their own. -/
theorem UsesSettled.params {pins : List Pin} {body : List Node} {place : Place}
    (sound : ∀ p ∈ pins, p.ty.Sound) (laid : Pin.Laid first pins stop)
    (inner : UsesSettled g tokens pins.reverse body) :
    UsesSettled g tokens []
      (Reader.pinNodes pins place ++ body ++ Reader.unpinNodes pins place) := by
  intro before offset k held
  have static : ∀ p ∈ pins, p.ty.isRuntime = false := fun p mem => (sound p mem).isRuntime_eq_false
  refine .between fun bound pinned offset' => inner _ offset' bound ?_
  obtain ⟨entries, seen, names⟩ := verifyAll_pinNodes pinned
  obtain rfl : entries = [] := by
    have unnoted : runtimeNames pins = [] := by
      simpa [runtimeNames] using static
    simpa [unnoted] using names
  rw [seen, List.nil_append]
  have fresh := held.append (by simp) (noneBelow_pinNodes laid place offset k)
  have turned : ∀ p ∈ pins.reverse, p.ty.isRuntime = false := by simpa using static
  simpa using fresh.statics turned

end Bodies

/-! ## Texts -/

section Texts

variable {callees : List Call} {s next : Supply}

/-- The slots still to be handed out are above those of the pins in scope. -/
def Supply.Fresh (s : Supply) : Prop := ∀ p ∈ s.book.live, p.slot < s.nextSlot

theorem Supply.Fresh.mono (fresh : s.Fresh) (live : next.book.live = s.book.live)
    (le : s.nextSlot ≤ next.nextSlot) : next.Fresh := fun p mem =>
  Nat.lt_of_lt_of_le (fresh p (live ▸ mem)) le

theorem Supply.Fresh.label (fresh : s.Fresh) : s.label.2.Fresh := fresh

theorem Supply.Fresh.bound {pins : List Pin} (fresh : s.Fresh) (fits : ∀ p ∈ pins, p.Fits)
    (laid : Pin.Laid s.nextSlot pins next.nextSlot)
    (live : next.book.live = pins.reverse ++ s.book.live) : next.Fresh := by
  rw [Supply.Fresh, live]
  refine List.forall_mem_append.2 ⟨fun p mem => ?_, fun p mem => ?_⟩
  · have mem := List.mem_reverse.1 mem
    have range := laid.range p mem
    have wide := (fits p mem).width_pos
    omega
  · exact Nat.lt_of_lt_of_le (fresh p mem) laid.le

/-- **In what statements stand for, every use of a runtime pin is settled.** -/
theorem Builds.usesSettled (hg : g.Sound callees) {ss : List Statement} {nodes : List Node}
    (h : Builds g s ss nodes next) (spelled : spellAll ss <:+: tokens) (fresh : s.Fresh) :
    UsesSettled g tokens s.book.live nodes := by
  induction h with
  | nil => exact .nil
  | atom here _ ih =>
    have live := congrArg PinBook.live here.book_eq
    have onward := ih (spellAll_infix_of_cons spelled).2 (fresh.mono live (Nat.le_of_eq here.nextSlot_eq.symm))
    exact .append (.leaf (here.fits hg)) fresh (.leaf (here.fits hg)) (live ▸ onward)
  | ifThen inner _ ihInner ihAfter =>
    obtain ⟨here, rest⟩ := spellAll_infix_of_cons spelled
    have arm := inner.scoped hg
    have within := ihInner (Statement.infix_of_ifThen here) fresh
    have onward := ihAfter rest (fresh.mono inner.live_eq arm.le)
    rw [inner.live_eq] at onward
    exact .append (.ifTrue arm) fresh (.ifTrue fresh within) onward
  | ifNo left right _ ihLeft ihRight ihAfter =>
    obtain ⟨here, rest⟩ := spellAll_infix_of_cons spelled
    obtain ⟨-, no⟩ := Statement.infix_of_ifElse here
    have first := left.scoped hg
    have second := right.scoped hg
    have between := fresh.label.mono left.live_eq first.le
    have within := ihRight no between
    have onward := ihAfter rest (between.mono right.live_eq second.le)
    rw [right.live_eq, left.live_eq] at onward
    rw [left.live_eq] at within second
    exact .append ((Scoped.ifFalse second).widen first.le (Nat.le_refl _)) fresh
      (.ifFalse fresh within) onward
  | ifBoth left right _ ihLeft ihRight ihAfter =>
    obtain ⟨here, rest⟩ := spellAll_infix_of_cons spelled
    obtain ⟨yes, no⟩ := Statement.infix_of_ifElse here
    have first := left.scoped hg
    have second := right.scoped hg
    have between := fresh.label.mono left.live_eq first.le
    have within := ihRight no between
    have onward := ihAfter rest (between.mono right.live_eq second.le)
    rw [right.live_eq, left.live_eq] at onward
    rw [left.live_eq] at within second
    exact .append (.ifElse first second) fresh (.ifElse first fresh (ihLeft yes fresh) within) onward
  | loop bound left right _ ihLeft ihRight ihAfter =>
    obtain ⟨here, rest⟩ := spellAll_infix_of_cons spelled
    obtain ⟨condition, body⟩ := Statement.infix_of_loop here
    have sound := bound.sound hg
    have inside := fresh.bound (List.forall_mem_singleton.2 (.inr sound)) bound.laid bound.live_eq
    have first := left.scoped hg
    have second := right.scoped hg
    have between := inside.label.mono left.live_eq first.le
    have test := ihLeft condition inside
    have round := ihRight body between
    have le := Nat.le_trans bound.laid.le (Nat.le_trans first.le second.le)
    rw [left.live_eq] at second round
    rw [Supply.label_book, bound.live_eq] at first second test round
    rw [Supply.label_nextSlot, bound.nextSlot_eq, ← bound.slot] at first
    have onward := ihAfter rest (fresh.mono rfl le)
    rw [Supply.Fresh, ← bound.slot] at fresh
    exact .append (.loop sound first second) fresh (.loop sound first fresh test round) onward
  | bind bound within _ ihWithin ihAfter =>
    obtain ⟨here, rest⟩ := spellAll_infix_of_cons spelled
    obtain ⟨list, body⟩ := Statement.infix_of_bind here
    have fits := bound.fits hg
    have inside := fresh.bound fits bound.laid bound.live_eq
    have inner := within.scoped hg
    have settled := ihWithin body inside
    have le := Nat.le_trans bound.laid.le inner.le
    rw [bound.live_eq] at inner settled
    exact .append (.bind fits bound.laid inner) fresh
      (.bind fresh fits bound.laid list bound.named settled) (ihAfter rest (fresh.mono rfl le))

/-- **In what items stand for, every use of a runtime pin is settled.** -/
theorem Elaborates.usesSettled (hg : g.Sound callees) {heads : List Head} {items : List Item}
    {fs : List Func} {main : List Node} (h : Elaborates g s heads items fs main next)
    (sound : ∀ h ∈ heads, h.Sound) (spelled : items.flatMap Item.spell <:+: tokens)
    (outside : s.book.live = []) :
    (∀ f ∈ fs, UsesSettled g tokens [] f.body) ∧ UsesSettled g tokens [] main := by
  -- No pin is in scope outside all definitions.
  have empty : ∀ {s : Supply}, s.book.live = [] → s.Fresh := fun live => by simp [Supply.Fresh, live]
  have item : ∀ {item : Item} {items : List Item}, (item :: items).flatMap Item.spell <:+: tokens →
      item.spell <:+: tokens ∧ items.flatMap Item.spell <:+: tokens := fun spelled =>
    ⟨.trans (List.prefix_append ..).isInfix spelled, .trans (List.suffix_append ..).isInfix spelled⟩
  induction h with
  | nil => exact ⟨by simp, .nil⟩
  | statement built _ ih =>
    obtain ⟨here, rest⟩ := item spelled
    obtain ⟨functions, main⟩ := ih sound rest (built.live_eq.trans outside)
    have code := built.usesSettled hg (by simpa [spellAll, Item.spell] using here) (empty outside)
    have stands := built.scoped hg
    rw [outside] at code stands
    exact ⟨functions, .append stands (by simp) code main⟩
  | stray _ ih => exact ih sound (item spelled).2 outside
  | plain _ ih => exact ih sound (item spelled).2 outside
  | @function s entered _ _ _ _ opener heading _ paren body stop _ _ _ _ _ bound built _ ih =>
    obtain ⟨here, rest⟩ := item spelled
    obtain ⟨own, others⟩ := List.forall_mem_cons.1 sound
    obtain ⟨functions, main⟩ := ih others rest outside
    have typed := bound.sound own.2
    have inside := (empty outside).bound (fun p mem => .inr (typed p mem)) bound.laid bound.live_eq
    have read : spellAll body <:+: tokens :=
      .trans ⟨opener.1 :: (heading ++ [paren.1]), [stop.1], by simp [Item.spell]⟩ here
    have inner := built.usesSettled hg read inside
    rw [bound.live_eq, outside, List.append_nil] at inner
    exact ⟨List.forall_mem_cons.2 ⟨.params typed bound.laid inner, functions⟩, main⟩

end Texts

/-! ## Programs -/

theorem allSettled_visitsFuncs {fs : List Func} {callees : List Call}
    (formed : ∀ f ∈ fs, ∃ first stop, Scoped callees [] first stop f.body)
    (settles : ∀ f ∈ fs, UsesSettled g tokens [] f.body) (before : List Visit) :
    AllSettled g tokens before (visitsFuncs fs .empty) := by
  induction fs generalizing before with
  | nil => trivial
  | cons f fs ih =>
    obtain ⟨first, stop, body⟩ := formed f (List.mem_cons_self ..)
    refine AllSettled.append (settles f (List.mem_cons_self ..) _ _ _ .nil) ?_
    split
    · rename_i next verified
      rw [Func.sightings_eq body verified]
      exact ih (fun g mem => formed g (List.mem_cons_of_mem _ mem))
        (fun g mem => settles g (List.mem_cons_of_mem _ mem)) _
    · trivial

/-- **The type that a runtime pin is given at a use** is that of the value which the first pin of
its name took in the same `bind`. So it is the type of the pin's own value if no other name of that
`bind` is spelled like it, and otherwise just if both values have the same type. -/
theorem Program.tyOf_eq_ok_iff_takenBy {limits : Limits} {text file : String} {p : Program}
    {tables : Tables} (ok : Program.ofText limits text file = .ok (p, tables))
    {before after : List Visit} {v : Visit} (visits : p.visits = before ++ v :: after) {pin : Pin}
    (use : v.node.uses pin = true) (runtime : pin.ty = .runtime) :
    ∃ scanned survey own pins first, Scanned.ofText text file = .ok scanned
      ∧ Survey.ofTokens limits scanned = .ok survey ∧ takenBy before pin = some own
      ∧ BoundTogether survey.globals scanned.tokens before pins ∧ pin ∈ pins
      ∧ pins.find? pin.isNamesake = some first
      ∧ ∀ place ty, v.known.tyOf pin place = .ok ty ↔ takenBy before first = some ty := by
  obtain ⟨scanned, lexed, spelled⟩ := Program.ofText_eq_ok ok
  obtain ⟨survey, items, last, surveyed, all, elaborates, -⟩ := elaborates_of_ofTokens spelled
  have sound := Survey.ofTokens_sound surveyed
  have book := Survey.run_book (Survey.ofTokens_eq_ok surveyed).1
  obtain ⟨functions, main⟩ := elaborates.usesSettled sound.globals sound.heads
    (all ▸ List.infix_rfl : _ <:+: scanned.tokens) (congrArg PinBook.live book)
  have formed := Program.formed_of_ofTokens spelled
  have settled := allSettled_visitsFuncs formed.scoped
    (List.forall_mem_append.2 ⟨functions, List.forall_mem_singleton.2 main⟩) []
  rw [show visitsFuncs (p.functions ++ [p.main]) .empty = before ++ v :: after from visits]
    at settled
  obtain ⟨own, pins, first, facts⟩ := settled.of_append pin use runtime
  exact ⟨scanned, survey, own, pins, first, lexed, surveyed, facts⟩

theorem visits_eq_take_append {visits : List Visit} (n : Nat) (h : n < visits.length) :
    visits = visits.take n ++ visits[n] :: visits.drop (n + 1) := by simp

theorem isSome_ofText_shadowed :
    (Program.ofText {} "1 bind x in c\"a\" bind x in x drop ; x print ;" "t").toOption.isSome
      = true := by
  decide +kernel

/-- After an inner `bind` of the same name is over, a use sees the outer one's value again. -/
theorem tyOf_iff_takenBy_shadowed :
    ∃ p tables before v after,
      Program.ofText {} "1 bind x in c\"a\" bind x in x drop ; x print ;" "t" = .ok (p, tables)
        ∧ p.visits = before ++ v :: after ∧ v.node.uses ⟨"x", .runtime, 0⟩ = true
        ∧ takenBy before ⟨"x", .runtime, 0⟩ = some .number
        ∧ ∃ scanned survey own pins first,
          Scanned.ofText "1 bind x in c\"a\" bind x in x drop ; x print ;" "t" = .ok scanned
          ∧ Survey.ofTokens {} scanned = .ok survey ∧ takenBy before ⟨"x", .runtime, 0⟩ = some own
          ∧ BoundTogether survey.globals scanned.tokens before pins ∧ ⟨"x", .runtime, 0⟩ ∈ pins
          ∧ pins.find? (Pin.isNamesake ⟨"x", .runtime, 0⟩) = some first
          ∧ ∀ place ty, v.known.tyOf ⟨"x", .runtime, 0⟩ place = .ok ty
              ↔ takenBy before first = some ty := by
  have spelled := Except.eq_ok_get isSome_ofText_shadowed
  have visits : ((Program.ofText {} "1 bind x in c\"a\" bind x in x drop ; x print ;"
      "t").toOption.get isSome_ofText_shadowed).1.visits = _ :=
    visits_eq_take_append 7 (by decide +kernel)
  exact ⟨_, _, _, _, _, spelled, visits, by decide +kernel, by decide +kernel,
    Program.tyOf_eq_ok_iff_takenBy spelled visits (by decide +kernel) rfl⟩

theorem isSome_ofText_repeated :
    (Program.ofText {} "c\"a\" 1 bind x x in x print ;" "t").toOption.isSome = true := by
  decide +kernel

/-- Where one `bind` repeats a name, its last pin holds the value and its first one gives the
type. -/
theorem repeated_name_mistyped :
    ∃ p tables before v after,
      Program.ofText {} "c\"a\" 1 bind x x in x print ;" "t" = .ok (p, tables)
        ∧ p.visits = before ++ v :: after ∧ v.node.uses ⟨"x", .runtime, 1⟩ = true
        ∧ takenBy before ⟨"x", .runtime, 1⟩ = some .number
        ∧ v.known.tyOf ⟨"x", .runtime, 1⟩ v.node.place = .ok .pointer := by
  have spelled := Except.eq_ok_get isSome_ofText_repeated
  have visits : ((Program.ofText {} "c\"a\" 1 bind x x in x print ;"
      "t").toOption.get isSome_ofText_repeated).1.visits = _ :=
    visits_eq_take_append 4 (by decide +kernel)
  exact ⟨_, _, _, _, _, spelled, visits, by decide +kernel, by decide +kernel, by decide +kernel⟩

end PinnedStack
