import PinnedStack.Proofs.Typing.Rules

/-!
# Stacks that differ in what pointers lead to

Comparing takes any two pointers for equal, so two stacks that compare equal may still lead to
different values.

* `Ty.Alike`, `Shape.Alike`, `Knowledge.Alike` — equality up to the targets of pointers.
* `Op.Apart` — an access that meets two addresses of different values.
* `Op.verify_alike` — from stacks that are alike, an operation leads to stacks that are alike,
  unless it is such an access.
-/

namespace PinnedStack

/-! ## Types -/

/-- Equal, or both addresses. -/
def Ty.Alike (a b : Ty) : Prop := a = b ∨ a.isPointer = true ∧ b.isPointer = true

namespace Ty

variable {a b c : Ty}

theorem Alike.refl (a : Ty) : a.Alike a := .inl rfl

theorem Alike.symm (h : a.Alike b) : b.Alike a := by
  rcases h with rfl | ⟨ha, hb⟩
  · exact .refl _
  · exact .inr ⟨hb, ha⟩

theorem Alike.trans (hab : a.Alike b) (hbc : b.Alike c) : a.Alike c := by
  rcases hab with rfl | ⟨ha, hb⟩
  · exact hbc
  · rcases hbc with rfl | ⟨_, hc⟩
    · exact .inr ⟨ha, hb⟩
    · exact .inr ⟨ha, hc⟩

theorem Alike.isPointer_eq (h : a.Alike b) : a.isPointer = b.isPointer := by
  rcases h with rfl | ⟨ha, hb⟩
  · rfl
  · rw [ha, hb]

theorem Alike.of_fits (h : a.fits b = true) : a.Alike b := by
  unfold fits at h
  split at h
  · rename_i both
    exact .inr (by simpa using both)
  · split at h
    · cases h
    · cases h
    · exact .inl (by simpa using h)
    · exact .inl (by simpa using h)
    · cases h

theorem fits_pointer (ha : a.isPointer = true) : a.fits b = b.isPointer := by
  match a, ha with
  | .word .pointer, _ =>
    cases b with
    | word k => cases k <;> rfl
    | pointerTo _ => rfl
    | record _ => rfl
  | .pointerTo _, _ =>
    cases b with
    | word k => cases k <;> rfl
    | pointerTo _ => rfl
    | record _ => rfl

theorem Alike.fits_eq (h : a.Alike b) : a.fits c = b.fits c := by
  rcases h with rfl | ⟨ha, hb⟩
  · rfl
  · rw [fits_pointer ha, fits_pointer hb]

theorem Alike.fits_eq_right (h : a.Alike b) : c.fits a = c.fits b := by
  rw [fits_comm c a, fits_comm c b, h.fits_eq]

theorem Alike.kind?_eq (h : a.Alike b) : a.kind? = b.kind? := by
  rcases h with rfl | ⟨ha, hb⟩
  · rfl
  · rw [kind?_of_isPointer ha, kind?_of_isPointer hb]

theorem Alike.isConcrete_eq (h : a.Alike b) : a.isConcrete = b.isConcrete := by
  rw [isConcrete, isConcrete, h.kind?_eq]

theorem Alike.words (h : a.Alike b) : List.Forall₂ Alike a.words b.words := by
  rcases h with rfl | ⟨ha, hb⟩
  · exact List.forall₂_same.2 fun t _ => .refl t
  · rw [words_of_isPointer ha, words_of_isPointer hb]
    exact .cons (.inr ⟨ha, hb⟩) .nil

theorem Alike.eq_number (h : a.Alike b) (ha : a = .number) : b = .number := by
  rcases h with rfl | ⟨pointer, -⟩
  · exact ha
  · rw [ha] at pointer
    cases pointer

theorem Alike.plus {a' b' t : Ty} (ha : a.Alike a') (hb : b.Alike b') (ok : a.plus b = .ok t) :
    ∃ t', a'.plus b' = .ok t' ∧ t.Alike t' := by
  rcases plus_eq_ok.1 ok with ⟨pa, nb, rfl⟩ | ⟨na, pb, rfl⟩ | ⟨na, nb, rfl⟩
  · exact ⟨a', plus_eq_ok.2 (.inl ⟨ha.isPointer_eq ▸ pa, hb.eq_number nb, rfl⟩), ha⟩
  · exact ⟨b', plus_eq_ok.2 (.inr (.inl ⟨ha.eq_number na, hb.isPointer_eq ▸ pb, rfl⟩)), hb⟩
  · exact ⟨.number, plus_eq_ok.2 (.inr (.inr ⟨ha.eq_number na, hb.eq_number nb, rfl⟩)), .refl _⟩

theorem Alike.minus {a' b' t : Ty} (ha : a.Alike a') (hb : b.Alike b') (ok : a.minus b = .ok t) :
    ∃ t', a'.minus b' = .ok t' ∧ t.Alike t' := by
  rcases minus_eq_ok.1 ok with ⟨pa, pb, rfl⟩ | ⟨pa, nb, rfl⟩ | ⟨na, nb, rfl⟩
  · exact ⟨.number, minus_eq_ok.2 (.inl ⟨ha.isPointer_eq ▸ pa, hb.isPointer_eq ▸ pb, rfl⟩),
      .refl _⟩
  · exact ⟨a', minus_eq_ok.2 (.inr (.inl ⟨ha.isPointer_eq ▸ pa, hb.eq_number nb, rfl⟩)), ha⟩
  · exact ⟨.number, minus_eq_ok.2 (.inr (.inr ⟨ha.eq_number na, hb.eq_number nb, rfl⟩)), .refl _⟩

end Ty

/-! ## Stacks -/

/-- Cells of types that are alike, wherever they come from. -/
def Cell.Alike (c d : Cell) : Prop := c.ty.Alike d.ty

namespace Shape

/-- Equally high stacks whose words are alike. -/
def Alike (s t : Shape) : Prop := List.Forall₂ Cell.Alike s.cells t.cells

variable {s t u : Shape}

theorem Alike.refl (s : Shape) : s.Alike s := List.forall₂_same.2 fun c _ => .refl c.ty

theorem Alike.symm (h : s.Alike t) : t.Alike s :=
  List.Forall₂.flip (h.imp fun _ _ alike => Ty.Alike.symm alike)

theorem Alike.trans (hst : s.Alike t) (htu : t.Alike u) : s.Alike u := by
  unfold Alike at *
  generalize s.cells = xs at *
  generalize t.cells = ys at *
  generalize u.cells = zs at *
  induction hst generalizing zs with
  | nil => exact htu
  | cons head _ ih =>
    cases htu with
    | cons head' rest => exact .cons (Ty.Alike.trans head head') (ih _ rest)

theorem Matches.alike (h : s.Matches t) : s.Alike t := h.imp fun _ _ fits => Ty.Alike.of_fits fits

/-- Words that fit go on fitting what is like them. -/
theorem fits_of_alike {cells cells' : List Cell} {types : List Ty}
    (fits : List.Forall₂ (fun c w => c.ty.fits w = true) cells types)
    (alike : List.Forall₂ Cell.Alike cells cells') :
    List.Forall₂ (fun c w => c.ty.fits w = true) cells' types := by
  induction alike generalizing types with
  | nil => exact fits
  | cons head _ ih =>
    cases fits with
    | cons fit rest => exact .cons (Ty.Alike.fits_eq head ▸ fit) (ih rest)

/-- A stack that matches goes on matching what is like it. -/
theorem Matches.of_alike (h : s.Matches t) (alike : t.Alike u) : s.Matches u := by
  unfold Matches Alike at *
  generalize s.cells = xs at *
  generalize t.cells = ys at *
  generalize u.cells = zs at *
  induction alike generalizing xs with
  | nil => exact h
  | cons head _ ih =>
    cases h with
    | cons fit rest => exact .cons (Ty.Alike.fits_eq_right head ▸ fit) (ih _ rest)

theorem Alike.push (h : s.Alike t) {a b : Ty} (alike : a.Alike b) (p q : Place) :
    (s.push a p).Alike (t.push b q) := by
  refine List.rel_append ?_ h
  refine List.forall₂_reverse_iff.2 ?_
  rw [List.forall₂_map_left_iff, List.forall₂_map_right_iff]
  exact alike.words

theorem Alike.pushAll (h : s.Alike t) (ts : List Ty) (p q : Place) :
    (s.pushAll ts p).Alike (t.pushAll ts q) := by
  unfold Shape.pushAll
  induction ts generalizing s t with
  | nil => exact h
  | cons a ts ih => exact ih (h.push (.refl a) p q)

end Shape

/-- What is like an appended list is cut where that one is. -/
theorem exists_append_of_forall₂ {R : Cell → Cell → Prop} {xs ys zs : List Cell}
    (h : List.Forall₂ R (xs ++ ys) zs) :
    ∃ us vs, zs = us ++ vs ∧ List.Forall₂ R xs us ∧ List.Forall₂ R ys vs := by
  have flipped : List.Forall₂ (flip R) zs (xs ++ ys) := List.Forall₂.flip h
  exact ⟨zs.take xs.length, zs.drop xs.length, (List.take_append_drop ..).symm,
    (List.forall₂_take_append _ _ _ flipped).flip, (List.forall₂_drop_append _ _ _ flipped).flip⟩

theorem Shape.Alike.dropValue {s t rest : Shape} {op : String} {a b : Ty} {place : Place}
    (h : s.Alike t) (alike : a.Alike b) (ok : s.dropValue op a place = .ok rest) :
    ∃ rest', t.dropValue op b place = .ok rest' ∧ rest.Alike rest' := by
  obtain ⟨cells, eq, fits⟩ := dropValue_eq_ok.1 ok
  unfold Alike at h
  rw [eq] at h
  obtain ⟨us, vs, whole, top, below⟩ := exists_append_of_forall₂ h
  refine ⟨⟨vs⟩, dropValue_eq_ok.2 ⟨us, whole, ?_⟩, below⟩
  have moved := fits_of_alike fits top
  rcases alike with rfl | ⟨pa, pb⟩
  · exact moved
  · -- Both values are one address.
    rw [Ty.words_of_isPointer pa, List.reverse_singleton] at moved
    rw [Ty.words_of_isPointer pb, List.reverse_singleton]
    obtain ⟨c, rest, fit, none, rfl⟩ := List.forall₂_cons_right_iff.1 moved
    cases none
    exact .cons (Ty.Alike.fits_eq_right (.inr ⟨pa, pb⟩) ▸ fit) .nil

/-! ## Knowledge -/

/-- The same names, bound to types that are alike. -/
def Sightings.Alike (s t : Sightings) : Prop :=
  List.Forall₂ (fun e f => e.1 = f.1 ∧ e.2.Alike f.2) s.seen t.seen

namespace Sightings

variable {s t : Sightings}

theorem Alike.refl (s : Sightings) : s.Alike s := List.forall₂_same.2 fun e _ => ⟨rfl, .refl e.2⟩

theorem Alike.record (h : s.Alike t) (name : String) {a b : Ty} (alike : a.Alike b) :
    (s.record name a).Alike (t.record name b) := .cons ⟨rfl, alike⟩ h

theorem Alike.current? (h : s.Alike t) {name : String} {a : Ty} (found : s.current? name = some a) :
    ∃ b, t.current? name = some b ∧ a.Alike b := by
  unfold Sightings.current? at *
  unfold Alike at h
  generalize s.seen = xs at *
  generalize t.seen = ys at *
  induction h with
  | nil => cases found
  | @cons e f xs ys head _ ih =>
    obtain ⟨same, alike⟩ := head
    by_cases here : e.1 = name
    · have there : f.1 = name := same ▸ here
      simp only [here, beq_self_eq_true, List.find?_cons_of_pos, Option.map_some,
        Option.some.injEq] at found
      exact ⟨f.2, by simp [there], found ▸ alike⟩
    · have there : f.1 ≠ name := same ▸ here
      rw [List.find?_cons_of_neg (by simpa using here)] at found
      rw [List.find?_cons_of_neg (by simpa using there)]
      exact ih found

theorem Alike.release (h : s.Alike t) (name : String) : (s.release name).Alike (t.release name) := by
  unfold Sightings.release
  unfold Alike at *
  simp only
  generalize s.seen = xs at *
  generalize t.seen = ys at *
  induction h with
  | nil => exact .nil
  | @cons e f xs ys head rest ih =>
    by_cases here : e.1 = name
    · have there : f.1 = name := head.1 ▸ here
      rw [List.eraseP_cons_of_pos (by simpa using here), List.eraseP_cons_of_pos (by simpa using there)]
      exact rest
    · have there : f.1 ≠ name := head.1 ▸ here
      rw [List.eraseP_cons_of_neg (by simpa using here), List.eraseP_cons_of_neg (by simpa using there)]
      exact .cons head ih

end Sightings

/-- Stacks that are alike, and runtime pins that hold types that are alike. -/
structure Knowledge.Alike (k j : Knowledge) : Prop where
  shape : k.shape.Alike j.shape
  sightings : k.sightings.Alike j.sightings

namespace Knowledge

variable {k j after : Knowledge} {p : Pin} {place : Place}

theorem Alike.refl (k : Knowledge) : k.Alike k := ⟨.refl _, .refl _⟩

theorem Alike.tyOf (h : k.Alike j) {a : Ty} (ok : k.tyOf p place = .ok a) :
    ∃ b, j.tyOf p place = .ok b ∧ a.Alike b := by
  unfold Knowledge.tyOf at *
  split at ok
  · rename_i runtime
    split at ok
    · rename_i ty found
      cases ok
      obtain ⟨b, there, alike⟩ := h.sightings.current? found
      exact ⟨b, by rw [if_pos runtime, there], alike⟩
    · cases ok
  · rename_i static
    cases ok
    exact ⟨p.ty, by rw [if_neg static], .refl _⟩

theorem Alike.bindPin (h : k.Alike j) (ok : k.bindPin p place = .ok after) :
    ∃ after', j.bindPin p place = .ok after' ∧ after.Alike after' := by
  cases runtime : p.ty.isRuntime with
  | false =>
    obtain ⟨rest, top, rfl⟩ := (bindPin_eq_ok runtime).1 ok
    obtain ⟨rest', there, alike⟩ := h.shape.dropValue (.refl p.ty) top
    exact ⟨_, (bindPin_eq_ok runtime).2 ⟨rest', there, rfl⟩, alike, h.sightings⟩
  | true =>
    have none := Ty.isRuntime_iff.1 runtime
    obtain ⟨c, rest, cells, single, rfl⟩ := (bindPin_runtime_eq_ok none).1 ok
    have shape := h.shape
    unfold Shape.Alike at shape
    rw [cells] at shape
    obtain ⟨d, rest', alike, below, there⟩ := List.forall₂_cons_left_iff.1 shape
    refine ⟨_, (bindPin_runtime_eq_ok none).2 ⟨d, rest', there, ?_, rfl⟩, below,
      h.sightings.record _ alike⟩
    exact Ty.Alike.isConcrete_eq alike ▸ single

theorem Alike.updatePin (h : k.Alike j) (ok : k.updatePin p place = .ok after) :
    ∃ after', j.updatePin p place = .ok after' ∧ after.Alike after' := by
  obtain ⟨a, rest, typed, top, rfl⟩ := updatePin_eq_ok.1 ok
  obtain ⟨b, typed', alike⟩ := h.tyOf typed
  obtain ⟨rest', there, below⟩ := h.shape.dropValue alike top
  exact ⟨_, updatePin_eq_ok.2 ⟨b, rest', typed', there, rfl⟩, below, h.sightings⟩

theorem Alike.pushPin (h : k.Alike j) (ok : k.pushPin p place = .ok after) :
    ∃ after', j.pushPin p place = .ok after' ∧ after.Alike after' := by
  obtain ⟨a, typed, rfl⟩ := pushPin_eq_ok.1 ok
  obtain ⟨b, typed', alike⟩ := h.tyOf typed
  exact ⟨_, pushPin_eq_ok.2 ⟨b, typed', rfl⟩, h.shape.push alike _ _, h.sightings⟩

theorem Alike.releasePin (h : k.Alike j) (p : Pin) : (k.releasePin p).Alike (j.releasePin p) := by
  unfold Knowledge.releasePin
  split
  · exact ⟨h.shape, h.sightings.release _⟩
  · exact h

end Knowledge

/-! ## Operations -/

/-- How much an operation moves through an address. -/
def Op.access? : Op → Option Access
  | .load access => some access
  | .store access => some access
  | _ => none

/-- An access that meets two addresses through which it does not move values that are alike. -/
def Op.Apart (op : Op) (place : Place) (k j : Knowledge) : Prop :=
  ∃ access c d, op.access? = some access ∧ k.shape.peek? = some c ∧ j.shape.peek? = some d
    ∧ ∀ t u, pointee op.name c.ty access place = .ok t → pointee op.name d.ty access place = .ok u →
      ¬ t.Alike u

/-- From stacks that are alike an operation leads to stacks that are alike, unless it is an access
to values that are not. -/
theorem Op.Turns.alike {op : Op} {place : Place} {k j : Knowledge} {after : Shape}
    (h : op.Turns place k.shape after) (alike : k.shape.Alike j.shape) :
    (∃ after', op.Turns place j.shape after' ∧ after.Alike after') ∨ op.Apart place k j := by
  obtain ⟨⟨xs⟩, sk⟩ := k
  obtain ⟨⟨ys⟩, sj⟩ := j
  unfold Shape.Alike at alike
  simp only at alike h
  cases h with
  | dup =>
    obtain ⟨b, below, head, rest, rfl⟩ := List.forall₂_cons_left_iff.1 alike
    exact .inl ⟨_, .dup, .cons head (.cons head rest)⟩
  | drop =>
    obtain ⟨b, below, head, rest, rfl⟩ := List.forall₂_cons_left_iff.1 alike
    exact .inl ⟨_, .drop, rest⟩
  | swap =>
    obtain ⟨b, _, first, more, rfl⟩ := List.forall₂_cons_left_iff.1 alike
    obtain ⟨a, below, second, rest, rfl⟩ := List.forall₂_cons_left_iff.1 more
    exact .inl ⟨_, .swap, .cons second (.cons first rest)⟩
  | copySecond =>
    obtain ⟨b, _, first, more, rfl⟩ := List.forall₂_cons_left_iff.1 alike
    obtain ⟨a, below, second, rest, rfl⟩ := List.forall₂_cons_left_iff.1 more
    exact .inl ⟨_, .copySecond, .cons second (.cons first (.cons second rest))⟩
  | rot =>
    obtain ⟨c, _, first, more, rfl⟩ := List.forall₂_cons_left_iff.1 alike
    obtain ⟨b, _, second, most, rfl⟩ := List.forall₂_cons_left_iff.1 more
    obtain ⟨a, below, third, rest, rfl⟩ := List.forall₂_cons_left_iff.1 most
    exact .inl ⟨_, .rot, .cons third (.cons first (.cons second rest))⟩
  | add rule =>
    obtain ⟨b, _, first, more, rfl⟩ := List.forall₂_cons_left_iff.1 alike
    obtain ⟨a, below, second, rest, rfl⟩ := List.forall₂_cons_left_iff.1 more
    obtain ⟨t, sum, same⟩ := Ty.Alike.plus second first rule
    exact .inl ⟨_, .add sum, Shape.Alike.push (s := ⟨_⟩) (t := ⟨_⟩) rest same _ _⟩
  | sub rule =>
    obtain ⟨b, _, first, more, rfl⟩ := List.forall₂_cons_left_iff.1 alike
    obtain ⟨a, below, second, rest, rfl⟩ := List.forall₂_cons_left_iff.1 more
    obtain ⟨t, sum, same⟩ := Ty.Alike.minus second first rule
    exact .inl ⟨_, .sub sum, Shape.Alike.push (s := ⟨_⟩) (t := ⟨_⟩) rest same _ _⟩
  | @load access c rest t wide leads =>
    obtain ⟨d, below, head, rest, rfl⟩ := List.forall₂_cons_left_iff.1 alike
    by_cases same : ∃ u, pointee (Op.load access).name d.ty access place = .ok u ∧ t.Alike u
    · obtain ⟨u, leads', same⟩ := same
      exact .inl ⟨_, .load wide leads', Shape.Alike.push (s := ⟨_⟩) (t := ⟨_⟩) rest same _ _⟩
    · refine .inr ⟨access, c, d, rfl, rfl, rfl, fun t' u here there like => ?_⟩
      rw [leads] at here
      cases here
      exact same ⟨u, there, like⟩
  | @store access c cells rest t wide leads fits =>
    obtain ⟨d, _, head, more, rfl⟩ := List.forall₂_cons_left_iff.1 alike
    by_cases same : ∃ u, pointee (Op.store access).name d.ty access place = .ok u ∧ t.Alike u
    · obtain ⟨u, leads', same⟩ := same
      have top : (⟨cells ++ rest⟩ : Shape).dropValue "" t place = .ok ⟨rest⟩ :=
        Shape.dropValue_eq_ok.2 ⟨cells, rfl, fits⟩
      obtain ⟨left, there, below⟩ := Shape.Alike.dropValue (t := ⟨_⟩) more same top
      obtain ⟨cells', eq, fits'⟩ := Shape.dropValue_eq_ok.1 there
      simp only at eq
      subst eq
      exact .inl ⟨left, .store wide leads' fits', below⟩
    · refine .inr ⟨access, c, d, rfl, rfl, rfl, fun t' u here there like => ?_⟩
      rw [leads] at here
      cases here
      exact same ⟨u, there, like⟩
  | syscall number count concrete =>
    obtain ⟨d, _, head, more, rfl⟩ := List.forall₂_cons_left_iff.1 alike
    obtain ⟨us, vs, rfl, top, below⟩ := exists_append_of_forall₂ more
    refine .inl ⟨_, .syscall (Ty.Alike.fits_eq head ▸ number) (top.length_eq ▸ count) ?_,
      Shape.Alike.push (s := ⟨_⟩) (t := ⟨_⟩) below (.refl _) _ _⟩
    intro a mem
    clear count alike more
    induction top with
    | nil => cases mem
    | cons like _ ih =>
      rcases List.mem_cons.1 mem with rfl | mem
      · exact Ty.Alike.isConcrete_eq like ▸ concrete _ (List.mem_cons_self ..)
      · exact ih (fun c mem => concrete c (List.mem_cons_of_mem _ mem)) mem
  | @fixed _ contract cells rest effect fits =>
    obtain ⟨us, vs, rfl, top, below⟩ := exists_append_of_forall₂ alike
    have like : List.Forall₂ Cell.Alike cells us.reverse := by
      simpa using List.forall₂_reverse_iff.2 top
    have fits' := Shape.fits_of_alike fits like
    have turns : Op.Turns place _ ⟨_ ++ vs⟩ _ := .fixed effect fits'
    rw [List.reverse_reverse] at turns
    exact .inl ⟨_, turns, Shape.Alike.pushAll (s := ⟨_⟩) (t := ⟨_⟩) below _ _ _⟩

theorem Op.verify_alike {op : Op} {place : Place} {k j after : Knowledge} (alike : k.Alike j)
    (ok : op.verify place k = .ok after) :
    (∃ after', op.verify place j = .ok after' ∧ after.Alike after') ∨ op.Apart place k j := by
  cases pinning : op.isPinning with
  | true =>
    refine .inl ?_
    cases op with
    | pin p => exact alike.bindPin ok
    | update p => exact alike.updatePin ok
    | pinned p => exact alike.pushPin ok
    | unpin p =>
      cases ok
      exact ⟨_, rfl, alike.releasePin p⟩
    | _ => cases pinning
  | false =>
    obtain ⟨s, turns, rfl⟩ := (verify_eq_ok pinning).1 ok
    rcases turns.alike alike.shape with ⟨t, turns', like⟩ | apart
    · exact .inl ⟨_, (verify_eq_ok pinning).2 ⟨t, turns', rfl⟩, like, alike.sightings⟩
    · exact .inr apart

/-- A contract leads from stacks that are alike to stacks that are alike. -/
theorem Contract.applyTo_alike {c : Contract} {s t after : Shape} {op : String} {place : Place}
    (alike : s.Alike t) (ok : c.applyTo s op place = .ok after) :
    ∃ after', c.applyTo t op place = .ok after' ∧ after.Alike after' := by
  obtain ⟨cells, rest, eq, fits, rfl⟩ := applyTo_eq_ok.1 ok
  unfold Shape.Alike at alike
  rw [eq] at alike
  obtain ⟨us, vs, whole, top, below⟩ := exists_append_of_forall₂ alike
  have like : List.Forall₂ Cell.Alike cells us.reverse := by
    simpa using List.forall₂_reverse_iff.2 top
  exact ⟨_, applyTo_eq_ok.2 ⟨us.reverse, vs, by simpa using whole, Shape.fits_of_alike fits like, rfl⟩,
    Shape.Alike.pushAll (s := ⟨_⟩) (t := ⟨_⟩) below _ _ _⟩

end PinnedStack
