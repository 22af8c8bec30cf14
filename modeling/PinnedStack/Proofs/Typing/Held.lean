import Mathlib.Data.List.Nodup
import PinnedStack.Proofs.Grammar.Scopes
import PinnedStack.Proofs.Typing.Sightings

/-!
# The notes that runtime pins leave

Values are bound from the last name of a `bind` to the first, and each binding notes its type in
front of those before. A name stands for the last pin of that name, but its type is looked up among
the notes, where that of the first one comes first.

* `takenBy` — the type of the value that a pin was last bound to.
* `BoundTogether` — the pins of all the names between a `bind` and its `in`.
* `Held` — the notes that stand for the pins in scope. `Held.find?` — which of them a name is looked
  up to. `Held.append` — visits that bind other pins leave them standing.
* `Scoped.noneBelow` — a body binds pins of its own slots only.
-/

namespace PinnedStack

open Token (Key Word)

variable {g : Globals} {tokens : List Token}

/-- Does a node push the value of a pin or replace it? -/
def Node.uses (n : Node) (p : Pin) : Bool :=
  match n with
  | .op (.pinned q) _ => q == p
  | .op (.update q) _ => q == p
  | _ => false

/-- The type of the value that a visit binds a pin to. -/
def Visit.taken? (v : Visit) (p : Pin) : Option Ty :=
  match v.node with
  | .op (.pin q) _ => if q = p then v.known.shape.peek?.map (·.ty) else none
  | _ => none

/-- The type of the value that a pin was last bound to. -/
def takenBy (visits : List Visit) (p : Pin) : Option Ty := visits.reverse.findSome? (·.taken? p)

/-- The pins are those of all the names between a `bind` of the text and its `in`, in order. They were
bound one after the other, the last name first. -/
def BoundTogether (g : Globals) (tokens : List Token) (visits : List Visit) (pins : List Pin) :
    Prop :=
  ∃ (opener : Key .bind) (names : List Word) (split : Key .within),
    opener.1 :: (names.unattach ++ [split.1]) <:+: tokens
      ∧ List.Forall₂ (fun t p => Names g t .runtime p.name p.ty) names.unattach pins
      ∧ Reader.pinNodes pins opener.1.place <:+: visits.map (·.node)

/-- Two pins of a name, neither with a type of its own. -/
def Pin.isNamesake (p q : Pin) : Bool := q.ty.isRuntime && q.name == p.name

/-! ## What was taken -/

theorem takenBy_append_of_ne {visits more : List Visit} {p : Pin}
    (other : ∀ v ∈ more, v.taken? p = none) : takenBy (visits ++ more) p = takenBy visits p := by
  have later : more.reverse.findSome? (·.taken? p) = none := by
    simpa [List.findSome?_eq_none_iff] using other
  simp [takenBy, List.findSome?_append, later]

theorem takenBy_append_pin {visits : List Visit} {v : Visit} {p : Pin} {ty : Ty}
    (taken : v.taken? p = some ty) : takenBy (visits ++ [v]) p = some ty := by
  simp [takenBy, taken]

theorem BoundTogether.append {visits : List Visit} {pins : List Pin}
    (h : BoundTogether g tokens visits pins) (more : List Visit) :
    BoundTogether g tokens (visits ++ more) pins := by
  obtain ⟨opener, names, split, spelled, named, bound⟩ := h
  refine ⟨opener, names, split, spelled, named, ?_⟩
  rw [List.map_append]
  exact bound.trans (List.infix_append_left ..)

/-- No visit binds a pin below a slot. -/
def NoneBelow (first : Nat) (visits : List Visit) : Prop :=
  ∀ v ∈ visits, ∀ p place, v.node = .op (.pin p) place → first ≤ p.slot

theorem NoneBelow.taken?_eq_none {first : Nat} {visits : List Visit} (h : NoneBelow first visits)
    {p : Pin} (below : p.slot < first) : ∀ v ∈ visits, v.taken? p = none := by
  intro v mem
  unfold Visit.taken?
  split
  · rename_i q place node
    have above := h v mem q place node
    rw [if_neg]
    rintro rfl
    omega
  · rfl

theorem NoneBelow.mono {first low : Nat} {visits : List Visit} (h : NoneBelow first visits)
    (le : low ≤ first) : NoneBelow low visits := fun v mem p place node =>
  Nat.le_trans le (h v mem p place node)

theorem NoneBelow.nil {first : Nat} : NoneBelow first [] := by simp [NoneBelow]

theorem NoneBelow.cons {first : Nat} {v : Visit} {vs : List Visit}
    (other : ∀ p place, v.node ≠ .op (.pin p) place) (rest : NoneBelow first vs) :
    NoneBelow first (v :: vs) := by
  intro w mem p place node
  rcases List.mem_cons.1 mem with rfl | mem
  · exact absurd node (other p place)
  · exact rest w mem p place node

theorem NoneBelow.append {first : Nat} {xs ys : List Visit} (hx : NoneBelow first xs)
    (hy : NoneBelow first ys) : NoneBelow first (xs ++ ys) := by
  intro v mem
  rcases List.mem_append.1 mem with mem | mem
  · exact hx v mem
  · exact hy v mem

/-! ## The notes of the pins in scope -/

/-- The note that binding a runtime pin left. -/
def note? (visits : List Visit) (p : Pin) : Option (String × Ty) :=
  if p.ty.isRuntime then (takenBy visits p).map (p.name, ·) else none

/-- The notes that stand for the pins in scope, the innermost `bind` first. The pin of a loop and the
inputs of a function have types of their own and no notes. -/
inductive Held (g : Globals) (tokens : List Token) (visits : List Visit) :
    List Pin → List (String × Ty) → Prop where
  | nil : Held g tokens visits [] []
  | static {p : Pin} {scope : List Pin} {seen : List (String × Ty)}
      (own : p.ty.isRuntime = false) (rest : Held g tokens visits scope seen) :
      Held g tokens visits (p :: scope) seen
  | bind {pins scope : List Pin} {seen : List (String × Ty)} (rest : Held g tokens visits scope seen)
      (together : BoundTogether g tokens visits pins)
      (taken : ∀ p ∈ pins, p.ty.isRuntime = true → (takenBy visits p).isSome) :
      Held g tokens visits (pins.reverse ++ scope) (pins.filterMap (note? visits) ++ seen)

/-- The note that is found under a name is that of the first runtime pin of the name. -/
theorem find?_notes {visits : List Visit} {pins : List Pin} {p : Pin}
    (taken : ∀ q ∈ pins, q.ty.isRuntime = true → (takenBy visits q).isSome) :
    (pins.filterMap (note? visits)).find? (·.1 == p.name)
      = (pins.find? p.isNamesake).bind (note? visits) := by
  induction pins with
  | nil => rfl
  | cons q pins ih =>
    have ih := ih fun r mem => taken r (List.mem_cons_of_mem _ mem)
    cases runtime : q.ty.isRuntime with
    | false => simp [note?, runtime, Pin.isNamesake, ih]
    | true =>
      obtain ⟨ty, here⟩ := Option.isSome_iff_exists.1 (taken q (List.mem_cons_self ..) runtime)
      by_cases same : q.name = p.name
      · simp [note?, runtime, Pin.isNamesake, here, same]
      · simp [note?, runtime, Pin.isNamesake, here, same, ih]

theorem find?_notes_of_absent {visits : List Visit} {pins : List Pin} {name : String}
    (absent : ∀ q ∈ pins, q.name ≠ name) :
    (pins.filterMap (note? visits)).find? (·.1 == name) = none := by
  rw [List.find?_eq_none]
  intro e mem
  obtain ⟨q, here, eq⟩ := List.mem_filterMap.1 mem
  unfold note? at eq
  split at eq
  · obtain ⟨ty, -, rfl⟩ := Option.map_eq_some_iff.1 eq
    simpa using absent q here
  · cases eq

/-- A name in scope that has no type of its own is looked up among the notes of its `bind`. -/
theorem Held.find? {visits : List Visit} {scope : List Pin} {seen : List (String × Ty)}
    (h : Held g tokens visits scope seen) {p : Pin}
    (found : scope.find? (·.name == p.name) = some p) (runtime : p.ty.isRuntime = true) :
    ∃ pins first, BoundTogether g tokens visits pins ∧ p ∈ pins ∧ pins.find? p.isNamesake = some first
      ∧ (takenBy visits p).isSome
      ∧ (seen.find? (·.1 == p.name)).map (·.2) = takenBy visits first := by
  induction h with
  | nil => cases found
  | @static q scope seen own _ ih =>
    by_cases same : q.name = p.name
    · rw [List.find?_cons_of_pos (by simpa using same)] at found
      cases found
      rw [runtime] at own
      cases own
    · rw [List.find?_cons_of_neg (by simpa using same)] at found
      exact ih found
  | @bind pins scope seen rest together taken ih =>
    rw [List.find?_append] at found
    cases here : pins.reverse.find? (·.name == p.name) with
    | some q =>
      rw [here] at found
      cases found
      have mem : p ∈ pins := by simpa using List.mem_of_find?_eq_some here
      have listed : (pins.find? p.isNamesake).isSome := by
        rw [List.find?_isSome]
        exact ⟨p, mem, by simp [Pin.isNamesake, runtime]⟩
      obtain ⟨first, eq⟩ := Option.isSome_iff_exists.1 listed
      refine ⟨pins, first, together, mem, eq, taken p mem runtime, ?_⟩
      have own : first.ty.isRuntime = true ∧ first.name = p.name := by
        simpa [Pin.isNamesake] using List.find?_some eq
      obtain ⟨ty, held⟩ := Option.isSome_iff_exists.1
        (taken first (List.mem_of_find?_eq_some eq) own.1)
      rw [List.find?_append, find?_notes taken, eq]
      simp [note?, own.1, held]
    | none =>
      rw [here, Option.none_or] at found
      have absent : ∀ q ∈ pins, q.name ≠ p.name := by simpa using here
      obtain ⟨others, first, h⟩ := ih found
      refine ⟨others, first, ?_⟩
      rw [List.find?_append, find?_notes_of_absent absent, Option.none_or]
      exact h

/-- Visits that bind none of the pins in scope leave their notes standing. -/
theorem Held.append {visits more : List Visit} {scope : List Pin} {seen : List (String × Ty)}
    (h : Held g tokens visits scope seen) {first : Nat} (below : ∀ p ∈ scope, p.slot < first)
    (fresh : NoneBelow first more) : Held g tokens (visits ++ more) scope seen := by
  induction h with
  | nil => exact .nil
  | static own _ ih =>
    exact .static own (ih fun p mem => below p (List.mem_cons_of_mem _ mem))
  | @bind pins scope seen rest together taken ih =>
    have same : ∀ p ∈ pins, takenBy (visits ++ more) p = takenBy visits p := by
      intro p mem
      exact takenBy_append_of_ne (fresh.taken?_eq_none (below p (by simp [mem])))
    have notes : pins.filterMap (note? visits) = pins.filterMap (note? (visits ++ more)) := by
      refine List.filterMap_congr fun p mem => ?_
      simp only [note?, same p mem]
    rw [notes]
    refine .bind (ih fun p mem => below p (by simp [mem])) (together.append more) ?_
    intro p mem runtime
    rw [same p mem]
    exact taken p mem runtime

/-! ## Entering a `bind` -/

/-- The pins of a `bind` are told apart by their slots. -/
theorem Pin.Laid.nodup {first stop : Nat} {pins : List Pin} (laid : Pin.Laid first pins stop)
    (fits : ∀ p ∈ pins, p.Fits) : pins.Nodup := by
  induction pins generalizing first with
  | nil => exact .nil
  | cons p pins ih =>
    refine List.nodup_cons.2 ⟨fun mem => ?_, ih laid.2 fun q mem => fits q (.tail _ mem)⟩
    have above := (laid.2.range p mem).1
    have wide := (fits p (List.mem_cons_self ..)).width_pos
    have := laid.1
    omega

theorem visitsAll_pins {ps : List Pin} {place : Place} {offset : Nat} {k : Knowledge} :
    ∀ v ∈ visitsAll (ps.map fun p => .op (.pin p) place) offset k,
      ∃ p ∈ ps, v.node = .op (.pin p) place := by
  induction ps generalizing offset k with
  | nil => simp [visitsAll]
  | cons p ps ih =>
    intro v mem
    simp only [List.map_cons, visitsAll, Node.visits] at mem
    rcases List.mem_append.1 mem with mem | mem
    · obtain rfl := List.mem_singleton.1 mem
      exact ⟨p, List.mem_cons_self .., rfl⟩
    · split at mem
      · obtain ⟨q, here, node⟩ := ih v mem
        exact ⟨q, List.mem_cons_of_mem _ here, node⟩
      · simp at mem

/-- Binding pins visits each of them. -/
theorem visitsAll_pinNodes {pins : List Pin} {place : Place} {offset : Nat} {k after : Knowledge}
    (ok : verifyAll (Reader.pinNodes pins place) k = .ok after) :
    (visitsAll (Reader.pinNodes pins place) offset k).map (·.node)
      = Reader.pinNodes pins place := by
  unfold Reader.pinNodes at *
  generalize pins.reverse = ps at *
  induction ps generalizing offset k with
  | nil => rfl
  | cons p ps ih =>
    obtain ⟨next, one, rest⟩ := verifyAll_cons_eq_ok.1 ok
    simp only [List.map_cons, visitsAll, one]
    simp [Node.visits, ih rest]

/-- Binding pins one after the other leaves their notes in front of those before. -/
theorem seen_pins (before : List Visit) {ps : List Pin} {place : Place} (offset : Nat)
    {k after : Knowledge} (distinct : ps.Nodup)
    (ok : verifyAll (ps.map fun p => .op (.pin p) place) k = .ok after) :
    let visits := before ++ visitsAll (ps.map fun p => .op (.pin p) place) offset k
    after.sightings.seen = ps.reverse.filterMap (note? visits) ++ k.sightings.seen
      ∧ ∀ p ∈ ps, p.ty.isRuntime = true → (takenBy visits p).isSome := by
  induction ps generalizing before offset k with
  | nil =>
    cases ok
    simp
  | cons p ps ih =>
    obtain ⟨absent, distinct⟩ := List.nodup_cons.1 distinct
    obtain ⟨next, one, rest⟩ := verifyAll_cons_eq_ok.1 ok
    have split : visitsAll ((p :: ps).map fun p => .op (.pin p) place) offset k
        = ⟨.op (.pin p) place, k, offset⟩
          :: visitsAll (ps.map fun p => .op (.pin p) place) (offset + p.storeCode.length) next := by
      simp [visitsAll, Node.visits, one, Node.lines, Op.code]
    obtain ⟨seen, taken⟩ :=
      ih (before ++ [⟨.op (.pin p) place, k, offset⟩]) (offset + p.storeCode.length) distinct rest
    rw [split]
    simp only [List.append_assoc, List.singleton_append] at seen taken
    -- The pins bound after `p` leave what `p` took alone.
    have own : ∀ {ty}, (⟨.op (.pin p) place, k, offset⟩ : Visit).taken? p = some ty →
        takenBy (before ++ ⟨.op (.pin p) place, k, offset⟩
          :: visitsAll (ps.map fun p => .op (.pin p) place) (offset + p.storeCode.length) next) p
          = some ty := by
      intro ty here
      rw [← List.singleton_append, ← List.append_assoc, takenBy_append_of_ne]
      · exact takenBy_append_pin here
      · intro v mem
        obtain ⟨q, later, node⟩ := visitsAll_pins v mem
        simp only [Visit.taken?, node]
        rw [if_neg]
        rintro rfl
        exact absent later
    generalize before ++ ⟨.op (.pin p) place, k, offset⟩
      :: visitsAll (ps.map fun p => .op (.pin p) place) (offset + p.storeCode.length) next = all at *
    obtain ⟨quiet, noted⟩ := Knowledge.sightings_bindPin one
    cases runtime : p.ty.isRuntime with
    | false =>
      have silent : note? all p = none := by simp [note?, runtime]
      refine ⟨by simp [seen, quiet runtime, silent], ?_⟩
      intro q mem run
      rcases List.mem_cons.1 mem with rfl | mem
      · rw [runtime] at run
        cases run
      · exact taken q mem run
    | true =>
      obtain ⟨c, below, cells, same⟩ := noted runtime
      have mine := @own c.ty (by simp [Visit.taken?, Shape.peek?, cells])
      have said : note? all p = some (p.name, c.ty) := by simp [note?, runtime, mine]
      refine ⟨by simp [seen, same, said, Sightings.record], ?_⟩
      intro q mem run
      rcases List.mem_cons.1 mem with rfl | mem
      · rw [mine]
        rfl
      · exact taken q mem run

/-! ## Bodies -/

section Bodies

variable {callees : List Call} {scope : List Pin} {first stop : Nat} {nodes : List Node}

theorem visitsAll_unpins {pins : List Pin} {place : Place} {offset : Nat} {k : Knowledge} :
    ∀ v ∈ visitsAll (Reader.unpinNodes pins place) offset k,
      ∃ p, v.node = .op (.unpin p) place := by
  induction pins generalizing offset k with
  | nil => simp [Reader.unpinNodes, visitsAll]
  | cons p pins ih =>
    intro v mem
    simp only [Reader.unpinNodes, List.map_cons, visitsAll, Node.visits, Op.verify_unpin] at mem
    rcases List.mem_append.1 mem with mem | mem
    · obtain rfl := List.mem_singleton.1 mem
      exact ⟨p, rfl⟩
    · exact ih v mem

/-- Binding pins binds no pin below the first of their slots. -/
theorem noneBelow_pinNodes {pins : List Pin} (laid : Pin.Laid first pins stop) (place : Place)
    (offset : Nat) (k : Knowledge) :
    NoneBelow first (visitsAll (Reader.pinNodes pins place) offset k) := by
  intro v mem p place' node
  obtain ⟨q, here, eq⟩ := visitsAll_pins v mem
  rw [node] at eq
  cases eq
  exact (laid.range _ (by simpa using here)).1

/-- The visits of a body bind pins of its own slots only. -/
theorem Scoped.noneBelow (h : Scoped callees scope first stop nodes) (offset : Nat)
    (k : Knowledge) : NoneBelow first (visitsAll nodes offset k) := by
  induction h generalizing offset k with
  | nil => exact .nil
  | append left _ ihl ihr =>
    rw [visitsAll_append]
    refine (ihl offset k).append ?_
    split
    · exact (ihr _ _).mono left.le
    · exact .nil
  | @op scope first op place fits =>
    rw [visitsAll_singleton]
    refine .cons (fun p place node => ?_) .nil
    cases node
    exact fits
  | call =>
    rw [visitsAll_singleton]
    exact .cons (by simp) .nil
  | ifTrue _ inner =>
    rw [visitsAll_singleton]
    refine .cons (by simp) ?_
    split
    · exact inner _ _
    · exact .nil
  | ifFalse _ inner =>
    rw [visitsAll_singleton]
    refine .cons (by simp) ?_
    split
    · exact inner _ _
    · exact .nil
  | ifElse left _ ihl ihr =>
    rw [visitsAll_singleton]
    refine .cons (by simp) ?_
    split
    · refine (ihl _ _).append ?_
      split
      · exact (ihr _ _).mono left.le
      · exact .nil
    · exact .nil
  | loop _ left _ ihl ihr =>
    rw [visitsAll_singleton]
    refine .cons (by simp) ?_
    split
    · refine ((ihl _ _).mono (by omega)).append ?_
      split
      · split
        · exact (ihr _ _).mono (by have := left.le; omega)
        · exact .nil
      · exact .nil
    · exact .nil
  | bind fits laid _ ih =>
    rw [List.append_assoc, visitsAll_append]
    refine (noneBelow_pinNodes laid _ _ _).append ?_
    split
    · rw [visitsAll_append]
      refine ((ih _ _).mono laid.le).append ?_
      split
      · intro v mem p place node
        obtain ⟨q, eq⟩ := visitsAll_unpins v mem
        rw [node] at eq
        cases eq
      · exact .nil
    · exact .nil

theorem Held.statics {before : List Visit} {seen : List (String × Ty)} {pins : List Pin}
    (held : Held g tokens before scope seen) (static : ∀ p ∈ pins, p.ty.isRuntime = false) :
    Held g tokens before (pins ++ scope) seen := by
  induction pins with
  | nil => exact held
  | cons p pins ih =>
    exact .static (static p (.head _)) (ih fun q mem => static q (.tail _ mem))

/-- Pins that are bound in front of a body are held in it. -/
theorem Held.pinNodes {before : List Visit} {offset : Nat} {k bound : Knowledge} {pins : List Pin}
    (held : Held g tokens before scope k.sightings.seen) (below : ∀ p ∈ scope, p.slot < first)
    (fits : ∀ p ∈ pins, p.Fits) (laid : Pin.Laid first pins stop) {opener : Key .bind}
    {names : List Word} {split : Key .within}
    (spelled : opener.1 :: (names.unattach ++ [split.1]) <:+: tokens)
    (named : List.Forall₂ (fun t p => Names g t .runtime p.name p.ty) names.unattach pins)
    (pinned : verifyAll (Reader.pinNodes pins opener.1.place) k = .ok bound) :
    Held g tokens (before ++ visitsAll (Reader.pinNodes pins opener.1.place) offset k)
      (pins.reverse ++ scope) bound.sightings.seen := by
  have distinct : pins.reverse.Nodup := List.nodup_reverse.2 (laid.nodup fits)
  obtain ⟨seen, taken⟩ := seen_pins before offset distinct pinned
  rw [seen, List.reverse_reverse]
  refine .bind (held.append below (noneBelow_pinNodes laid _ _ _)) ?_
    fun p mem => taken p (by simpa using mem)
  refine ⟨opener, names, split, spelled, named, ?_⟩
  rw [List.map_append, visitsAll_pinNodes pinned]
  exact (List.suffix_append ..).isInfix

end Bodies

end PinnedStack
