import PinnedStack.Proofs.Tree.Agreement
import PinnedStack.Proofs.Typing.Resolves
import PinnedStack.Proofs.Typing.Sightings
import PinnedStack.Proofs.Typing.States

/-!
# Every word on the way is a number or an address

* `Ty.SoundWord`, `Knowledge.Sound` — one number or address, on the stack and in pins.
  `Op.Turns.sound` — operations leave such words.
* `Knowledge.Covers` — every runtime pin in scope has been seen. `Knowledge.Sound.tyOf` — so its type
  is known.
* `Guarded` — both hold all the way through a body. `Guarded.append`, `Guarded.loop` — the parts of a
  body; `Scoped.guarded` — well-scoped bodies.
* `Program.sound_states` — so they do in programs.
-/

namespace PinnedStack

/-! ## Sound words -/

/-- Is a type that of one word, a number or an address? An address of known target leads to words of
that kind too. -/
def Ty.SoundWord : Ty → Prop
  | .word kind => kind = .number ∨ kind = .pointer
  | .pointerTo target => target.Sound
  | .record _ => False

theorem Ty.SoundWord.sound {t : Ty} (h : t.SoundWord) : t.Sound := by
  cases t with
  | word _ => exact h
  | pointerTo _ => exact h
  | record _ => exact h.elim

/-- The words of a sound type are numbers and addresses. -/
theorem Ty.Sound.words {t w : Ty} (h : t.Sound) (mem : w ∈ t.words) : w.SoundWord := by
  cases t with
  | word kind =>
    obtain rfl := List.mem_singleton.1 mem
    exact h
  | pointerTo target =>
    obtain rfl := List.mem_singleton.1 mem
    exact h
  | record r =>
    obtain ⟨f, field, rfl⟩ := List.mem_map.1 mem
    exact h.2 f field

/-- A stack of sound words. -/
def Shape.Sound (s : Shape) : Prop := ∀ c ∈ s.cells, c.ty.SoundWord

namespace Shape.Sound

variable {s rest : Shape} {op : String} {place : Place}

theorem push (h : s.Sound) {t : Ty} (sound : t.Sound) : (s.push t place).Sound := by
  intro c mem
  rw [cells_push] at mem
  rcases List.mem_append.1 mem with mem | mem
  · obtain ⟨w, here, rfl⟩ := List.mem_map.1 (List.mem_reverse.1 mem)
    exact sound.words here
  · exact h c mem

theorem pushAll (h : s.Sound) {ts : List Ty} (sound : ∀ t ∈ ts, t.Sound) :
    (s.pushAll ts place).Sound := by
  unfold Shape.pushAll
  induction ts generalizing s with
  | nil => exact h
  | cons t ts ih =>
    obtain ⟨here, more⟩ := List.forall_mem_cons.1 sound
    exact ih (h.push here) more

theorem ofTys {ts : List Ty} (sound : ∀ t ∈ ts, t.Sound) : (Shape.ofTys ts place).Sound :=
  pushAll (fun _ mem => (List.not_mem_nil mem).elim) sound

theorem below (h : s.Sound) (top : List Cell) (rest : Shape)
    (cells : s.cells = top ++ rest.cells) : rest.Sound :=
  fun c mem => h c (cells ▸ List.mem_append_right top mem)

theorem drop (h : s.Sound) {expected : Ty} (ok : s.drop op expected place = .ok rest) :
    rest.Sound := by
  obtain ⟨c, cells, -⟩ := drop_eq_ok.1 ok
  exact h.below [c] rest cells

theorem dropValue (h : s.Sound) {t : Ty} (ok : s.dropValue op t place = .ok rest) :
    rest.Sound := by
  obtain ⟨top, cells, -⟩ := dropValue_eq_ok.1 ok
  exact h.below top rest cells

theorem applyTo (h : s.Sound) {c : Contract} (sound : c.Sound)
    (ok : c.applyTo s op place = .ok rest) : rest.Sound := by
  obtain ⟨top, left, cells, -, rfl⟩ := Contract.applyTo_eq_ok.1 ok
  exact (h.below top.reverse ⟨left⟩ cells).pushAll sound.2

end Shape.Sound

/-! ## Operations -/

/-- What an access through an address leads to is sound. -/
theorem Ty.Sound.pointee {address t : Ty} (h : address.Sound) {access : Access}
    (record : ∀ r, access = .record r → r.Sound) {op : String} {place : Place}
    (ok : pointee op address access place = .ok t) : t.Sound := by
  unfold PinnedStack.pointee at ok
  simp only at ok
  split at ok
  · cases ok
  · split at ok
    · cases ok
      exact .inl rfl
    · cases ok
      exact .inl rfl
    · rename_i target leads
      split at ok
      · cases ok
        cases address <;> cases leads
        exact h
      · cases ok
    · rename_i r _
      cases ok
      exact sound_ofRecord (record r rfl)
    · rename_i r target _
      split at ok
      · cases ok
        exact sound_ofRecord (record r rfl)
      · cases ok

/-- The values that an operation of fixed effect leaves are sound. -/
theorem Op.Fits.sound_outputs {op : Op} {scope : List Pin} (fits : op.Fits scope)
    {contract : Contract} (effect : op.contract? = some contract) :
    ∀ t ∈ contract.outputs, t.Sound := by
  have number : ∀ t ∈ [Ty.number], t.Sound := by simp [Ty.Sound]
  have pointer : ∀ t ∈ [Ty.pointer], t.Sound := by simp [Ty.Sound]
  cases op with
  | binary op =>
    cases op with
    | add => cases effect
    | sub => cases effect
    | _ =>
      cases effect
      exact number
  | load access =>
    cases access with
    | byte =>
      cases effect
      exact number
    | _ => cases effect
  | store access =>
    cases access with
    | byte =>
      cases effect
      simp
    | _ => cases effect
  | cast kind =>
    cases kind with
    | pointer =>
      cases effect
      exact pointer
    | _ =>
      cases effect
      exact number
  | number _ =>
    cases effect
    exact number
  | bool _ =>
    cases effect
    exact number
  | not =>
    cases effect
    exact number
  | streq =>
    cases effect
    exact number
  | cstring _ =>
    cases effect
    exact pointer
  | string _ _ =>
    cases effect
    exact List.forall_mem_singleton.2 (Ty.sound_ofRecord Record.sound_str)
  | memory _ _ =>
    cases effect
    exact List.forall_mem_singleton.2 fits.2
  | print =>
    cases effect
    simp
  | field _ _ =>
    cases effect
    exact List.forall_mem_singleton.2 (fits.1.of_mem_layout fits.2)
  | _ => cases effect

/-- An operation on no pin leaves sound words where it finds them. -/
theorem Op.Turns.sound {op : Op} {place : Place} {s after : Shape} {scope : List Pin}
    (turns : op.Turns place s after) (fits : op.Fits scope) (h : s.Sound) : after.Sound := by
  cases turns with
  | dup => simp_all [Shape.Sound]
  | drop => simp_all [Shape.Sound]
  | swap => simp_all [Shape.Sound]
  | copySecond => simp_all [Shape.Sound]
  | rot => simp_all [Shape.Sound]
  | @add a b rest ty rule =>
    refine (h.below [b, a] ⟨rest⟩ rfl).push ?_
    have sum : ty.Sound := by
      rcases Ty.plus_eq_ok.1 rule with ⟨-, -, rfl⟩ | ⟨-, -, rfl⟩ | ⟨-, -, rfl⟩
      · exact (h a (by simp)).sound
      · exact (h b (by simp)).sound
      · exact .inl rfl
    exact sum
  | @sub a b rest ty rule =>
    refine (h.below [b, a] ⟨rest⟩ rfl).push ?_
    rcases Ty.minus_eq_ok.1 rule with ⟨-, -, rfl⟩ | ⟨-, -, rfl⟩ | ⟨-, -, rfl⟩
    · exact .inl rfl
    · exact (h a (by simp)).sound
    · exact .inl rfl
  | @load access c rest ty wide leads =>
    refine (h.below [c] ⟨rest⟩ rfl).push ?_
    refine (h c (by simp)).sound.pointee ?_ leads
    rintro r rfl
    exact fits
  | @store access c cells rest ty => exact h.below (c :: cells) ⟨rest⟩ rfl
  | @syscall arguments c cells rest =>
    exact (h.below (c :: cells) ⟨rest⟩ rfl).push (.inl rfl)
  | @fixed op contract cells rest effect =>
    exact (h.below cells.reverse ⟨rest⟩ rfl).pushAll (fits.sound_outputs effect)

/-! ## What is known -/

/-- Sound words on the stack and in runtime pins. -/
structure Knowledge.Sound (k : Knowledge) : Prop where
  shape : k.shape.Sound
  seen : ∀ e ∈ k.sightings.seen, e.2.SoundWord

/-- Has every runtime pin in scope been seen? -/
def Knowledge.Covers (k : Knowledge) (scope : List Pin) : Prop :=
  ∀ p ∈ scope, p.ty.isRuntime = true → p.name ∈ k.sightings.seen.map (·.1)

namespace Knowledge.Sound

variable {k after : Knowledge} {p : Pin} {place : Place} {scope : List Pin}

theorem tyOf (h : k.Sound) (covers : k.Covers scope) (mem : p ∈ scope) (fits : p.Fits)
    (place : Place) : ∃ ty, k.tyOf p place = .ok ty ∧ ty.Sound := by
  cases runtime : p.ty.isRuntime with
  | false =>
    refine ⟨p.ty, tyOf_eq_ok runtime, ?_⟩
    rcases fits with kind | sound
    · rw [kind] at runtime
      cases runtime
    · exact sound
  | true =>
    obtain ⟨e, seen, name⟩ := List.mem_map.1 (covers p mem runtime)
    obtain ⟨found, here⟩ : ∃ e, k.sightings.seen.find? (·.1 == p.name) = some e :=
      Option.isSome_iff_exists.1 (List.find?_isSome.2 ⟨e, seen, by simp [name]⟩)
    refine ⟨found.2, ?_, (h.seen found (List.mem_of_find?_eq_some here)).sound⟩
    simp [Knowledge.tyOf, runtime, Sightings.current?, here]

theorem bindPin (h : k.Sound) (ok : k.bindPin p place = .ok after) : after.Sound := by
  cases runtime : p.ty.isRuntime with
  | false =>
    obtain ⟨rest, top, rfl⟩ := (bindPin_eq_ok runtime).1 ok
    exact ⟨h.shape.dropValue top, h.seen⟩
  | true =>
    obtain ⟨c, rest, cells, -, rfl⟩ := (bindPin_runtime_eq_ok (Ty.isRuntime_iff.1 runtime)).1 ok
    refine ⟨h.shape.below [c] ⟨rest⟩ cells, List.forall_mem_cons.2 ⟨?_, h.seen⟩⟩
    exact h.shape c (cells ▸ List.mem_cons_self ..)

theorem updatePin (h : k.Sound) (ok : k.updatePin p place = .ok after) : after.Sound := by
  obtain ⟨ty, rest, -, top, rfl⟩ := updatePin_eq_ok.1 ok
  exact ⟨h.shape.dropValue top, h.seen⟩

theorem pushPin (h : k.Sound) (covers : k.Covers scope) (mem : p ∈ scope) (fits : p.Fits)
    (ok : k.pushPin p place = .ok after) : after.Sound := by
  obtain ⟨ty, known, rfl⟩ := pushPin_eq_ok.1 ok
  obtain ⟨own, same, sound⟩ := h.tyOf covers mem fits place
  rw [known] at same
  cases same
  exact ⟨h.shape.push sound, h.seen⟩

/-- The value of a pin with a type of its own is sound wherever it is pushed. -/
theorem pushOwn (h : k.Sound) (own : p.ty.Sound) (ok : k.pushPin p place = .ok after) :
    after.Sound := by
  obtain ⟨ty, known, rfl⟩ := pushPin_eq_ok.1 ok
  rw [tyOf_eq_ok own.isRuntime_eq_false] at known
  cases known
  exact ⟨h.shape.push own, h.seen⟩

theorem releasePin (h : k.Sound) (p : Pin) : (k.releasePin p).Sound := by
  unfold Knowledge.releasePin
  split
  · exact ⟨h.shape, fun e mem => h.seen e (List.mem_of_mem_eraseP mem)⟩
  · exact h

end Knowledge.Sound

/-- An operation in scope leaves sound words where it finds them. -/
theorem Op.sound_verify {op : Op} {scope : List Pin} {place : Place} {k after : Knowledge}
    (fits : op.Fits scope) (pins : ∀ p ∈ scope, p.Fits) (h : k.Sound) (covers : k.Covers scope)
    (ok : op.verify place k = .ok after) : after.Sound := by
  cases pinning : op.isPinning with
  | false =>
    obtain ⟨s, turns, rfl⟩ := (Op.verify_eq_ok pinning).1 ok
    exact ⟨turns.sound fits h.shape, h.seen⟩
  | true =>
    cases op with
    | pinned p =>
      have mem := List.mem_of_find?_eq_some fits
      exact h.pushPin covers mem (pins p mem) ok
    | update p => exact h.updatePin ok
    | pin _ => exact fits.elim
    | unpin _ => exact fits.elim
    | _ => cases pinning

theorem Op.resolves_verify {op : Op} {scope : List Pin} {place : Place} {k : Knowledge}
    (fits : op.Fits scope) (pins : ∀ p ∈ scope, p.Fits) (h : k.Sound) (covers : k.Covers scope) :
    Resolves (op.verify place k) := by
  have known : ∀ {p : Pin}, scope.find? (·.name == p.name) = some p →
      ∃ ty, k.tyOf p place = .ok ty := fun {p} found =>
    have mem := List.mem_of_find?_eq_some found
    have ⟨ty, here, _⟩ := h.tyOf covers mem (pins p mem) place
    ⟨ty, here⟩
  unfold verify
  split
  · exact fits.elim
  · obtain ⟨ty, here⟩ := known fits
    exact Knowledge.resolves_updatePin here
  · obtain ⟨ty, here⟩ := known fits
    exact Knowledge.resolves_pushPin here
  · exact fits.elim
  · split
    · simp
    · rename_i d refused
      exact resolves_error.2 (resolves_verifyShape _ d refused)

/-! ## Bodies -/

section Bodies

variable {callees : List Call} {scope : List Pin} {first stop : Nat} {nodes : List Node}
  {k : Knowledge}

/-- What holds on the way through a body: all words are sound, and no name is unresolved. -/
structure Guarded (nodes : List Node) (k : Knowledge) : Prop where
  states : ∀ j ∈ statesAll nodes k, j.Sound
  resolves : Resolves (verifyAll nodes k)

theorem Guarded.last (h : Guarded nodes k) {after : Knowledge} (ok : verifyAll nodes k = .ok after) :
    after.Sound := h.states after (mem_statesAll_of_ok ok)

theorem Guarded.append {xs ys : List Node} (hx : Guarded xs k)
    (hy : ∀ middle, verifyAll xs k = .ok middle → Guarded ys middle) : Guarded (xs ++ ys) k where
  states j mem := by
    rcases mem_statesAll_append.1 mem with before | ⟨middle, ok, after⟩
    · exact hx.states j before
    · exact (hy middle ok).states j after
  resolves := by
    rw [verifyAll_append]
    exact resolves_bind hx.resolves fun middle ok => (hy middle ok).resolves

theorem Guarded.singleton {n : Node} (h : k.Sound) (inside : ∀ j ∈ n.states k, j.Sound)
    (last : ∀ after, n.verify k = .ok after → after.Sound) (resolves : Resolves (n.verify k)) :
    Guarded [n] k where
  states j mem := by
    rcases mem_statesAll_singleton.1 mem with rfl | mem | ok
    · exact h
    · exact inside j mem
    · exact last j ok
  resolves := by rwa [verifyAll_singleton]

theorem guarded_pins (ps : List Pin) (place : Place) (h : k.Sound) :
    Guarded (ps.map fun p => .op (.pin p) place) k := by
  induction ps generalizing k with
  | nil => exact ⟨by simpa [statesAll] using h, resolves_ok _⟩
  | cons p ps ih =>
    have first : Guarded [.op (.pin p) place] k :=
      .singleton h (by simp [Node.states]) (fun _ ok => h.bindPin ok) Knowledge.resolves_bindPin
    exact first.append fun middle ok => ih (first.last ok)

theorem guarded_unpins (ps : List Pin) (place : Place) (h : k.Sound) :
    Guarded (ps.map fun p => .op (.unpin p) place) k := by
  induction ps generalizing k with
  | nil => exact ⟨by simpa [statesAll] using h, resolves_ok _⟩
  | cons p ps ih =>
    have first : Guarded [.op (.unpin p) place] k := by
      refine .singleton h (by simp [Node.states]) (fun after ok => ?_) (resolves_ok _)
      cases ok
      exact h.releasePin p
    exact first.append fun middle ok => ih (first.last ok)

theorem Guarded.ifTrue {body : List Node} {label : Nat} {place : Place} (h : k.Sound)
    (arm : ∀ s, k.shape.drop "if" .number place = .ok s → Guarded body { k with shape := s }) :
    Guarded [.ifTrue body label place] k := by
  refine .singleton h (fun j mem => ?_) (fun after ok => ?_) ?_
  · obtain ⟨s, top, mem⟩ := mem_onward.1 mem
    exact (arm s top).states j mem
  · obtain ⟨s, top, ok, -⟩ := Node.verify_ifTrue_eq_ok.1 ok
    exact (arm s top).last ok
  · refine resolves_bind (Shape.resolves_drop _) fun s top => ?_
    refine resolves_bind (arm s top).resolves fun _ _ => ?_
    exact resolves_bind (resolves_checkSingleArm _ _) fun _ _ => resolves_ok _

/-- A branch with a single arm is walked the same way whichever number it is taken at. -/
theorem Guarded.ifFalse {body : List Node} {label : Nat} {place : Place} (h : k.Sound)
    (arm : ∀ s, k.shape.drop "if" .number place = .ok s → Guarded body { k with shape := s }) :
    Guarded [.ifFalse body label place] k := by
  have same : Guarded [.ifTrue body label place] k := .ifTrue h arm
  exact ⟨same.states, same.resolves⟩

theorem Guarded.ifElse {yes no : List Node} {label : Nat} {place : Place} (h : k.Sound)
    (armYes : ∀ s, k.shape.drop "if" .number place = .ok s → Guarded yes { k with shape := s })
    (armNo : ∀ s afterYes, k.shape.drop "if" .number place = .ok s →
      verifyAll yes { k with shape := s } = .ok afterYes →
      Guarded no { afterYes with shape := s }) :
    Guarded [.ifElse yes no label place] k := by
  refine .singleton h (fun j mem => ?_) (fun after ok => ?_) ?_
  · obtain ⟨s, top, mem⟩ := mem_onward.1 mem
    rcases List.mem_append.1 mem with mem | mem
    · exact (armYes s top).states j mem
    · obtain ⟨afterYes, ok, mem⟩ := mem_onward.1 mem
      exact (armNo s afterYes top ok).states j mem
  · obtain ⟨s, afterYes, afterNo, top, okYes, okNo, -, rfl⟩ := Node.verify_ifElse_eq_ok.1 ok
    exact ⟨((armYes s top).last okYes).shape, ((armNo s afterYes top okYes).last okNo).seen⟩
  · refine resolves_bind (Shape.resolves_drop _) fun s top => ?_
    refine resolves_bind (armYes s top).resolves fun afterYes ok => ?_
    refine resolves_bind (armNo s afterYes top ok).resolves fun _ _ => ?_
    exact resolves_bind (resolves_checkArms _ _) fun _ _ => resolves_ok _

/-- A loop around a condition and a body. -/
theorem Guarded.loop {p : Pin} {condition body : List Node} {label : Nat} {place : Place}
    (own : p.ty.Sound) (h : k.Sound)
    (test : ∀ bound start, k.bindPin p place = .ok bound → bound.pushPin p place = .ok start →
      Guarded condition start)
    (turn : ∀ bound start tested s, k.bindPin p place = .ok bound →
      bound.pushPin p place = .ok start → verifyAll condition start = .ok tested →
      tested.shape.drop "loop condition" .number place = .ok s →
      Guarded body { tested with shape := s }) :
    Guarded [.loop p condition body label place] k := by
  have known : ∀ j : Knowledge, j.tyOf p place = .ok p.ty :=
    fun j => Knowledge.tyOf_eq_ok own.isRuntime_eq_false
  refine .singleton h (fun j mem => ?_) (fun after ok => ?_) ?_
  · simp only [Node.states, mem_onward, List.mem_cons, List.mem_append, List.not_mem_nil,
      or_false] at mem
    obtain ⟨bound, taken, rfl | ⟨start, pushed, mem | ⟨tested, ended, s, number, mem
      | ⟨after, done, expected, next, rfl | ⟨updated, update, rfl | ⟨last, out, rfl⟩⟩⟩⟩⟩⟩ := mem
    · exact h.bindPin taken
    · exact (test bound start taken pushed).states j mem
    · exact (turn bound start tested s taken pushed ended number).states j mem
    · have round := (turn bound start tested s taken pushed ended number).last done
      have again : ({ after with shape := bound.shape } : Knowledge).Sound :=
        ⟨(h.bindPin taken).shape, round.seen⟩
      exact again.pushOwn own next
    · have round := (turn bound start tested s taken pushed ended number).last done
      exact round.updatePin update
    · have round := (turn bound start tested s taken pushed ended number).last done
      exact (round.updatePin update).pushOwn own out
  · obtain ⟨bound, start, tested, s, round, -, updated, last, taken, pushed, ended, number, -, done, -,
      -, update, out, rfl⟩ := Node.verify_loop_iff.1 ok
    have round := (turn bound start tested s taken pushed ended number).last done
    exact ((round.updatePin update).pushOwn own out).releasePin p
  · refine resolves_bind Knowledge.resolves_bindPin fun bound taken => ?_
    refine resolves_bind (Knowledge.resolves_pushPin (known _)) fun start pushed => ?_
    refine resolves_bind (test bound start taken pushed).resolves fun tested ended => ?_
    refine resolves_bind (Shape.resolves_drop _) fun s number => ?_
    refine resolves_bind (resolves_checkCondition _ _) fun _ _ => ?_
    refine resolves_bind (turn bound start tested s taken pushed ended number).resolves fun _ _ => ?_
    refine resolves_bind (Knowledge.resolves_pushPin (known _)) fun _ _ => ?_
    refine resolves_bind (resolves_checkRound _ _) fun _ _ => ?_
    refine resolves_bind (Knowledge.resolves_updatePin (known _)) fun _ _ => ?_
    exact resolves_bind (Knowledge.resolves_pushPin (known _)) fun _ _ => resolves_ok _

theorem Knowledge.Covers.bind {pins : List Pin} {place : Place} {after : Knowledge}
    (covers : k.Covers scope) (ok : verifyAll (Reader.pinNodes pins place) k = .ok after) :
    after.Covers (pins.reverse ++ scope) := by
  obtain ⟨entries, seen, names⟩ := verifyAll_pinNodes ok
  intro p mem runtime
  rw [seen, List.map_append, List.mem_append, names]
  rcases List.mem_append.1 mem with mem | mem
  · refine .inl (List.mem_map.2 ⟨p, List.mem_filter.2 ⟨?_, runtime⟩, rfl⟩)
    exact List.mem_reverse.1 mem
  · exact .inr (covers p mem runtime)

theorem Knowledge.Covers.cons {p : Pin} (covers : k.Covers scope) (static : p.ty.isRuntime = false) :
    k.Covers (p :: scope) := by
  intro q mem runtime
  rcases List.mem_cons.1 mem with rfl | mem
  · rw [static] at runtime
    cases runtime
  · exact covers q mem runtime

/-- **A well-scoped body meets sound words only, and knows the types of its pins.** -/
theorem Scoped.guarded (h : Scoped callees scope first stop nodes)
    (calls : ∀ c ∈ callees, c.contract.Sound) (pins : ∀ p ∈ scope, p.Fits) (sound : k.Sound)
    (covers : k.Covers scope) : Guarded nodes k := by
  induction h generalizing k with
  | nil => exact ⟨by simpa [statesAll] using sound, resolves_ok _⟩
  | append left _ ihl ihr =>
    have before := ihl pins sound covers
    refine before.append fun middle ok => ihr pins (before.last ok) ?_
    unfold Knowledge.Covers
    rw [left.sightings_eq ok]
    exact covers
  | op fits =>
    exact .singleton sound (by simp [Node.states])
      (fun _ ok => Op.sound_verify fits pins sound covers ok)
      (Op.resolves_verify fits pins sound covers)
  | call known =>
    refine .singleton sound (by simp [Node.states]) (fun after ok => ?_) ?_
    · obtain ⟨s, done, rfl⟩ := Node.verify_call_eq_ok.1 ok
      exact ⟨sound.shape.applyTo (calls _ known) done, sound.seen⟩
    · exact resolves_bind (Contract.resolves_applyTo _) fun _ _ => resolves_ok _
  | ifTrue _ ih =>
    exact .ifTrue sound fun s top => ih pins ⟨sound.shape.drop top, sound.seen⟩ covers
  | ifFalse _ ih =>
    exact .ifFalse sound fun s top => ih pins ⟨sound.shape.drop top, sound.seen⟩ covers
  | @ifElse scope first middle stop yes no label place left _ ihl ihr =>
    have armYes : ∀ s, k.shape.drop "if" .number place = .ok s →
        Guarded yes { k with shape := s } :=
      fun s top => ihl pins ⟨sound.shape.drop top, sound.seen⟩ covers
    refine .ifElse sound armYes fun s afterYes top ok => ?_
    refine ihr pins ⟨sound.shape.drop top, ((armYes s top).last ok).seen⟩ ?_
    unfold Knowledge.Covers
    simp only [left.sightings_eq ok]
    exact covers
  | @loop scope middle stop p condition body label place own left _ ihl ihr =>
    have inside : ∀ q ∈ p :: scope, q.Fits := List.forall_mem_cons.2 ⟨.inr own, pins⟩
    have enter : ∀ {bound start}, k.bindPin p place = .ok bound →
        bound.pushPin p place = .ok start → start.Sound ∧ start.Covers (p :: scope) := by
      intro bound start taken pushed
      refine ⟨(sound.bindPin taken).pushOwn own pushed, .cons ?_ own.isRuntime_eq_false⟩
      obtain ⟨-, -, rfl⟩ := Knowledge.pushPin_eq_ok.1 pushed
      obtain ⟨-, -, rfl⟩ := (Knowledge.bindPin_eq_ok own.isRuntime_eq_false).1 taken
      exact covers
    have test : ∀ bound start, k.bindPin p place = .ok bound → bound.pushPin p place = .ok start →
        Guarded condition start := by
      intro bound start taken pushed
      obtain ⟨sound, covers⟩ := enter taken pushed
      exact ihl inside sound covers
    refine .loop own sound test fun bound start tested s taken pushed ended number => ?_
    have after := (test bound start taken pushed).last ended
    refine ihr inside ⟨after.shape.drop number, after.seen⟩ ?_
    unfold Knowledge.Covers
    simp only [left.sightings_eq ended]
    exact (enter taken pushed).2
  | @bind scope first middle stop own body place fits _ _ ih =>
    have bound : Guarded (Reader.pinNodes own place) k := guarded_pins own.reverse place sound
    have inside : ∀ p ∈ own.reverse ++ scope, p.Fits := fun p mem =>
      (List.mem_append.1 mem).elim (fun mem => fits p (List.mem_reverse.1 mem)) (pins p)
    have whole := bound.append fun middle ok => ih inside (bound.last ok) (covers.bind ok)
    exact whole.append fun middle ok => guarded_unpins own place (whole.last ok)

end Bodies

/-! ## Programs -/

theorem Func.resolves_verify {f : Func} {sightings : Sightings}
    (body : Guarded f.body ⟨.ofTys f.contract.inputs f.place, sightings⟩) :
    Resolves (f.verify sightings) := by
  refine resolves_bind body.resolves fun after _ => ?_
  simp only
  split
  · exact resolves_ok _
  · exact resolves_error.2 rfl

/-- What holds on the way through functions. Each leaves what is known of pins as it found it, so
all start from nothing. -/
theorem guarded_funcs {fs : List Func} {callees : List Call}
    (calls : ∀ c ∈ callees, c.contract.Sound)
    (formed : ∀ f ∈ fs, f.contract.Sound ∧ ∃ first stop, Scoped callees [] first stop f.body) :
    (∀ j ∈ statesFuncs fs .empty, j.Sound) ∧ Resolves (verifyFuncs fs .empty) := by
  induction fs with
  | nil => exact ⟨by simp [statesFuncs], resolves_ok _⟩
  | cons f fs ih =>
    obtain ⟨⟨contract, first, stop, nested⟩, rest⟩ := List.forall_mem_cons.1 formed
    obtain ⟨states, resolves⟩ := ih rest
    have body : Guarded f.body ⟨.ofTys f.contract.inputs f.place, .empty⟩ :=
      nested.guarded calls (by simp)
        ⟨.ofTys contract.1, fun _ mem => (List.not_mem_nil mem).elim⟩ (by simp [Knowledge.Covers])
    refine ⟨fun j mem => ?_, resolves_bind (Func.resolves_verify body) fun next ok => ?_⟩
    · rcases List.mem_append.1 mem with mem | mem
      · exact body.states j mem
      · obtain ⟨next, ok, mem⟩ := mem_onward.1 mem
        rw [Func.sightings_eq nested ok] at mem
        exact states j mem
    · rw [Func.sightings_eq nested ok]
      exact resolves

theorem verifyFuncs_append (fs gs : List Func) (sightings : Sightings) :
    verifyFuncs (fs ++ gs) sightings = (verifyFuncs fs sightings >>= verifyFuncs gs) := by
  induction fs generalizing sightings with
  | nil => rfl
  | cons f fs ih =>
    simp only [List.cons_append, verifyFuncs, ih]
    cases f.verify sightings <;> rfl

/-- A fault of a program is one of its functions in order, the code outside them last. -/
theorem Program.verify_eq_error {p : Program} {d : Diagnostic} (refused : p.verify = .error d) :
    verifyFuncs (p.functions ++ [p.main]) .empty = .error d := by
  rw [verifyFuncs_append]
  rcases Except.bind_eq_error.1 refused with functions | ⟨sightings, functions, refused⟩
  · rw [functions]
    rfl
  · rcases Except.bind_eq_error.1 refused with main | ⟨_, _, done⟩
    · rw [functions]
      simp [verifyFuncs, main, bind, Except.bind]
    · cases done

/-- **Every word on the way is a number or an address.** In a program that a text spells, each state
of verification, up to the first fault, has only numbers and addresses on its stack and in its
runtime pins, and verification never fails for a pin whose type it does not know. -/
theorem Program.sound_states {limits : Limits} {text file : String} {p : Program}
    {tables : Tables} (ok : Program.ofText limits text file = .ok (p, tables)) :
    (∀ k ∈ p.states, (∀ c ∈ k.shape.cells, c.ty.SoundWord) ∧ ∀ e ∈ k.sightings.seen, e.2.SoundWord)
      ∧ ∀ d, p.verify = .error d → ∀ name, d.fault ≠ .unresolved name := by
  obtain ⟨scanned, -, spelled⟩ := Program.ofText_eq_ok ok
  have formed := Program.formed_of_ofTokens spelled
  have calls : ∀ c ∈ p.functions.map Func.call, c.contract.Sound := by
    intro c mem
    obtain ⟨f, here, rfl⟩ := List.mem_map.1 mem
    exact (formed.functions f here).contract
  have all : ∀ f ∈ p.functions ++ [p.main], f.contract.Sound
      ∧ ∃ first stop, Scoped (p.functions.map Func.call) [] first stop f.body := by
    refine fun f mem => ⟨?_, formed.scoped f mem⟩
    rcases List.mem_append.1 mem with mem | mem
    · exact (formed.functions f mem).contract
    · obtain rfl := List.mem_singleton.1 mem
      rw [formed.entry]
      exact ⟨by simp [Contract.empty], by simp [Contract.empty]⟩
  obtain ⟨states, resolves⟩ := guarded_funcs calls all
  refine ⟨fun k mem => ⟨(states k mem).shape, (states k mem).seen⟩, fun d refused name same => ?_⟩
  have known := resolves d (Program.verify_eq_error refused)
  rw [same] at known
  cases known

/-- What a refusal blames. -/
def faultOf? {α : Type} : Except Diagnostic α → Option Fault
  | .ok _ => none
  | .error d => some d.fault

theorem faultOf?_eq_some {α : Type} {x : Except Diagnostic α} {fault : Fault} :
    faultOf? x = some fault ↔ ∃ d, x = .error d ∧ d.fault = fault := by
  cases x <;> simp [faultOf?]

/-- A function with a loop, and a binding of a string whose last use is refused. -/
def refusedAtEnd : String :=
  ": down ( Number -- ) loop i do i 1 - ; drop ; "
    ++ "\"ab\" bind length start in length down start @8 print start print ;"

/-- The words are sound in all of its states, and no name is to blame. -/
theorem sound_states_refusedAtEnd :
    ∃ p tables d, Program.ofText {} refusedAtEnd "t" = .ok (p, tables) ∧ p.states.length = 22
      ∧ p.verify = .error d ∧ d.fault = .mismatch "print" "Number" "Pointer"
      ∧ (∀ k ∈ p.states, (∀ c ∈ k.shape.cells, c.ty.SoundWord)
        ∧ ∀ e ∈ k.sightings.seen, e.2.SoundWord)
      ∧ ∀ name, d.fault ≠ .unresolved name := by
  obtain ⟨p, tables, spelled, holds⟩ := Except.exists_eq_ok (x := Program.ofText {} refusedAtEnd "t")
    (q := fun r => r.1.states.length == 22
      && faultOf? r.1.verify == some (.mismatch "print" "Number" "Pointer")) (by decide +kernel)
  obtain ⟨count, refused⟩ := Bool.and_eq_true_iff.1 holds
  obtain ⟨d, verdict, fault⟩ := faultOf?_eq_some.1 (beq_iff_eq.1 refused)
  obtain ⟨states, known⟩ := Program.sound_states spelled
  exact ⟨p, tables, d, spelled, beq_iff_eq.1 count, verdict, fault, states, known d verdict⟩

end PinnedStack
