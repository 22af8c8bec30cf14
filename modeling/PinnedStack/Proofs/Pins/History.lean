import PinnedStack.Pin
import Mathlib.Data.List.Nodup

/-!
# Histories of a pin book

A book of pins against the calls that were made on it, in any order and whether they succeed or not.

* `PinBook.Call`, `PinBook.Event` — a call, and a call with its answer. `PinBook.history` — the
  calls in a row from an empty book.
* `Neutral`, `Latest` — the pin of a name that was bound last and is not ended yet, said by the
  events alone: whatever came after it for that name is bound and ended again.
* `PinBook.history_refines` — what is in a book, what each call is answered and what it changes.
-/

namespace PinnedStack

namespace PinBook

/-! ## Calls and their answers -/

inductive Call where
  | pin (name : String) (ty : Ty)
  | unpin (name : String)
deriving DecidableEq

/-- What a book was asked for and what it answered. -/
inductive Event where
  | pinned (p : Pin)
  | refused (name : String) (ty : Ty) (fault : Fault)
  | unpinned (name : String) (ended : Option Pin)
deriving DecidableEq

namespace Event

def call : Event → Call
  | pinned p => .pin p.name p.ty
  | refused name ty _ => .pin name ty
  | unpinned name _ => .unpin name

def name : Event → String
  | pinned p => p.name
  | refused name _ _ => name
  | unpinned name _ => name

def pin? : Event → Option Pin
  | pinned p => some p
  | _ => none

end Event

/-- The pins that events brought, the oldest first. -/
def pinsOf (events : List Event) : List Pin := events.filterMap Event.pin?

/-- The words that the pins of events take. -/
def wordsOf (events : List Event) : Nat :=
  (pinsOf events).foldr (fun p words => p.ty.width + words) 0

/-- Calls that were answered and the book they left. -/
structure History where
  events : List Event
  book : PinBook

/-- One more call; a book that refuses a pin stays as it is. -/
def History.after (h : History) : Call → History
  | .pin name ty =>
      match h.book.pin name ty with
      | .ok (p, next) => ⟨h.events ++ [.pinned p], next⟩
      | .error fault => ⟨h.events ++ [.refused name ty fault], h.book⟩
  | .unpin name =>
      let (ended, next) := h.book.unpin name
      ⟨h.events ++ [.unpinned name ended], next⟩

/-- Calls in a row, from an empty book. -/
def history (capacity : Nat) (calls : List Call) : History :=
  calls.foldl History.after ⟨[], .empty capacity⟩

/-! ## The latest pin of a name -/

/-- Events behind which a name is bound to what it was bound to before them: each pin of the name is
ended within them. -/
inductive Neutral (name : String) : List Event → Prop
  | nil : Neutral name []
  | other {e : Event} {events : List Event} (apart : e.name ≠ name) (rest : Neutral name events) :
      Neutral name (e :: events)
  | refused {ty : Ty} {fault : Fault} {events : List Event} (rest : Neutral name events) :
      Neutral name (.refused name ty fault :: events)
  | ended {p : Pin} {ended : Option Pin} {inner events : List Event} (named : p.name = name)
      (inside : Neutral name inner) (rest : Neutral name events) :
      Neutral name (.pinned p :: (inner ++ .unpinned name ended :: events))

/-- The pin of a name that was bound last and is not ended yet. -/
def Latest (name : String) (events : List Event) (p : Pin) : Prop :=
  ∃ before after, events = before ++ .pinned p :: after ∧ p.name = name ∧ Neutral name after

/-- What a call is answered, by the events before it: a pin starts behind the words of all pins so
far and is refused where they leave too few; the end of a binding hands out the latest pin of the
name. -/
def Event.Answers (capacity : Nat) (before : List Event) : Event → Prop
  | pinned p => p.slot = wordsOf before ∧ wordsOf before + p.ty.width ≤ capacity
  | refused name ty fault =>
      capacity < wordsOf before + ty.width ∧ fault = .pinsExhausted name ty.width capacity
  | unpinned name ended => ∀ p, ended = some p ↔ Latest name before p

/-- The pins that a name is bound to after an event, innermost first. -/
def boundBy (name : String) (stack : List Pin) : Event → List Pin
  | .pinned p => if p.name = name then p :: stack else stack
  | .refused .. => stack
  | .unpinned other _ => if other = name then stack.tail else stack

/-- The pins that a name is bound to after events, innermost first. -/
def bound (name : String) (events : List Event) : List Pin := events.foldl (boundBy name) []

theorem bound_concat (name : String) (events : List Event) (e : Event) :
    bound name (events ++ [e]) = boundBy name (bound name events) e := by
  rw [bound, List.foldl_append]
  rfl

theorem boundBy_apart {name : String} {e : Event} (apart : e.name ≠ name) (stack : List Pin) :
    boundBy name stack e = stack := by
  cases e with
  | pinned p => exact if_neg apart
  | refused => rfl
  | unpinned other ended => exact if_neg apart

theorem Neutral.foldl_eq {name : String} {events : List Event} (h : Neutral name events)
    (stack : List Pin) : events.foldl (boundBy name) stack = stack := by
  induction h generalizing stack with
  | nil => rfl
  | other apart _ ih => rw [List.foldl_cons, boundBy_apart apart, ih]
  | refused _ ih => exact ih stack
  | @ended p _ _ _ named _ _ ihInside ihRest =>
    have opened : boundBy name stack (.pinned p) = p :: stack := if_pos named
    rw [List.foldl_cons, opened, List.foldl_append, ihInside, List.foldl_cons]
    have closed : ∀ ended, boundBy name (p :: stack) (.unpinned name ended) = stack :=
      fun _ => if_pos rfl
    rw [closed, ihRest]

theorem Neutral.append {name : String} {events more : List Event} (h : Neutral name events)
    (after : Neutral name more) : Neutral name (events ++ more) := by
  induction h with
  | nil => exact after
  | other apart _ ih => exact .other apart ih
  | refused _ ih => exact .refused ih
  | ended named inside _ _ ih =>
    rw [List.cons_append, List.append_assoc, List.cons_append]
    exact .ended named inside ih

theorem Latest.append {name : String} {events more : List Event} {p : Pin}
    (h : Latest name events p) (after : Neutral name more) : Latest name (events ++ more) p := by
  obtain ⟨before, between, rfl, named, neutral⟩ := h
  exact ⟨before, between ++ more, by simp, named, neutral.append after⟩

theorem bound_pinned {name : String} {p : Pin} (named : p.name = name) (before : List Event)
    {after : List Event} (neutral : Neutral name after) :
    bound name (before ++ .pinned p :: after) = p :: bound name before := by
  rw [bound, List.foldl_append, List.foldl_cons, neutral.foldl_eq]
  exact if_pos named

/-- By induction on the number of events. Where the last of them ends a binding, the pin behind it
is the latest one of the events before the pin that it ends. -/
theorem latest_of_bound {name : String} (count : Nat) {events : List Event}
    (few : events.length = count) {p : Pin} {stack : List Pin}
    (here : bound name events = p :: stack) : Latest name events p := by
  induction count using Nat.strongRecOn generalizing events p stack with
  | ind count ih =>
    rcases List.eq_nil_or_concat' events with rfl | ⟨front, e, rfl⟩
    · cases here
    rw [List.length_append, List.length_singleton] at few
    rw [bound_concat] at here
    by_cases apart : e.name = name
    · cases e with
      | pinned q =>
        have own : boundBy name (bound name front) (.pinned q) = q :: bound name front :=
          if_pos apart
        rw [own] at here
        cases here
        exact ⟨front, [], rfl, apart, .nil⟩
      | refused other ty fault =>
        cases apart
        exact (ih _ (by omega) rfl here).append (.refused .nil)
      | unpinned other ended =>
        obtain rfl : other = name := apart
        have own : boundBy other (bound other front) (.unpinned other ended)
            = (bound other front).tail := if_pos rfl
        rw [own] at here
        obtain ⟨q, behind⟩ : ∃ q, bound other front = q :: p :: stack := by
          cases eq : bound other front with
          | nil => simp [eq] at here
          | cons q rest =>
            rw [eq] at here
            exact ⟨q, congrArg _ here⟩
        obtain ⟨before, after, rfl, named, neutral⟩ := ih _ (by omega) rfl behind
        rw [bound_pinned named before neutral] at behind
        have outer : bound other before = p :: stack := (List.cons.inj behind).2
        have shorter : before.length < count := by
          simp only [List.length_append, List.length_cons] at few
          omega
        have closed : Neutral other (.pinned q :: (after ++ [.unpinned other ended])) :=
          .ended named neutral .nil
        simpa using (ih _ shorter rfl outer).append closed
    · rw [boundBy_apart apart] at here
      exact (ih _ (by omega) rfl here).append (.other apart .nil)

theorem head?_bound_iff {name : String} {events : List Event} {p : Pin} :
    (bound name events).head? = some p ↔ Latest name events p := by
  constructor
  · intro head
    obtain ⟨stack, here⟩ := List.head?_eq_some_iff.1 head
    exact latest_of_bound _ rfl here
  · rintro ⟨before, after, rfl, named, neutral⟩
    rw [bound_pinned named before neutral]
    rfl

/-! ## The book of a history -/

/-- The end of a binding takes the innermost pin of the name out of those in scope. -/
theorem filter_unpin (b : PinBook) (ended name : String) :
    (b.unpin ended).2.live.filter (·.name == name)
      = if ended = name then (b.live.filter (·.name == name)).tail
        else b.live.filter (·.name == name) := by
  unfold unpin
  simp only
  induction b.live with
  | nil => simp
  | cons p rest ih =>
    by_cases own : p.name = ended
    · subst own
      rw [List.eraseP_cons_of_pos (by simp)]
      by_cases same : p.name = name
      · simp [same]
      · simp [same]
    · rw [List.eraseP_cons_of_neg (by simpa using own), List.filter_cons, List.filter_cons, ih]
      by_cases same : p.name = name
      · have apart : ended ≠ name := fun eq => own (same.trans eq.symm)
        simp [same, apart]
      · simp [same]

theorem find?_eq_head? {b : PinBook} {name : String} {stack : List Pin}
    (h : b.live.filter (·.name == name) = stack) : b.find? name = stack.head? := by
  rw [find?, ← h, List.head?_filter]

/-- A name is refused a pin exactly where the slots left are too few for its words. -/
theorem pin_eq_error_iff {b : PinBook} {name : String} {ty : Ty} {fault : Fault} :
    b.pin name ty = .error fault
      ↔ b.capacity < b.nextSlot + ty.width
        ∧ fault = .pinsExhausted name ty.width b.capacity := by
  unfold pin
  constructor
  · intro failed
    split at failed
    · rename_i full
      cases failed
      exact ⟨full, rfl⟩
    · cases failed
  · rintro ⟨full, rfl⟩
    exact if_pos full

/-- Ending a binding takes away the pin that is found under the name and nothing else. -/
theorem unpin_of_find? {b : PinBook} {name : String} {p : Pin} (found : b.find? name = some p) :
    ∃ front back, b.live = front ++ p :: back ∧ (∀ q ∈ front, q.name ≠ name)
      ∧ b.unpin name = (some p, { b with live := front ++ back }) := by
  obtain ⟨named, front, back, live, apart⟩ := List.find?_eq_some_iff_append.1 found
  have others : ∀ q ∈ front, ¬ (q.name == name) = true := fun q mem => by simpa using apart q mem
  refine ⟨front, back, live, fun q mem => by simpa using apart q mem, ?_⟩
  have rest : (p :: back).eraseP (·.name == name) = back := List.eraseP_cons_of_pos named
  rw [unpin, found, live, List.eraseP_append_right _ others, rest]

theorem unpin_of_find?_eq_none {b : PinBook} {name : String} (absent : b.find? name = none) :
    b.unpin name = (none, b) := by
  rw [unpin, absent, List.eraseP_of_forall_not (List.find?_eq_none.1 absent)]

theorem find?_unpin_of_ne (b : PinBook) {name other : String} (apart : other ≠ name) :
    (b.unpin name).2.find? other = b.find? other := by
  have same := filter_unpin b name other
  rw [if_neg apart.symm] at same
  rw [find?_eq_head? same]
  exact List.head?_filter ..

/-- What holds of a history after any calls: slots were handed out one after the other, and the pins
in scope of each name are those that the events leave it bound to. -/
structure History.Kept (capacity : Nat) (h : History) : Prop where
  fixed : h.book.capacity = capacity
  slots : (pinsOf h.events).flatMap Pin.slots = List.range h.book.nextSlot
  room : h.book.nextSlot ≤ capacity
  bound : ∀ name, h.book.live.filter (·.name == name) = bound name h.events
  answers : ∀ before e after, h.events = before ++ e :: after → e.Answers capacity before

theorem pinsOf_pinned (events : List Event) (p : Pin) :
    pinsOf (events ++ [.pinned p]) = pinsOf events ++ [p] := by
  rw [pinsOf, List.filterMap_append]
  rfl

theorem pinsOf_concat (events : List Event) {e : Event} (none : e.pin? = none) :
    pinsOf (events ++ [e]) = pinsOf events := by
  rw [pinsOf, List.filterMap_append, List.filterMap_cons_none none, List.filterMap_nil,
    List.append_nil]
  rfl

theorem length_flatMap_slots (pins : List Pin) :
    (pins.flatMap Pin.slots).length = pins.foldr (fun p words => p.ty.width + words) 0 := by
  induction pins with
  | nil => rfl
  | cons p pins ih =>
    rw [List.flatMap_cons, List.length_append, ih, p.length_slots, List.foldr_cons]

namespace History.Kept

variable {capacity : Nat} {h : History}

theorem nextSlot_eq (kept : h.Kept capacity) : h.book.nextSlot = wordsOf h.events := by
  have total := congrArg List.length kept.slots
  rw [length_flatMap_slots, List.length_range] at total
  exact total.symm

theorem find?_iff (kept : h.Kept capacity) {name : String} {p : Pin} :
    h.book.find? name = some p ↔ Latest name h.events p := by
  rw [find?_eq_head? (kept.bound name)]
  exact head?_bound_iff

theorem start : Kept capacity ⟨[], .empty capacity⟩ where
  fixed := rfl
  slots := rfl
  room := Nat.zero_le capacity
  bound _ := rfl
  answers before e after eq := by simp at eq

/-- An event that is answered rightly leaves all answers right. -/
theorem answers_concat (kept : h.Kept capacity) {e : Event} (right : e.Answers capacity h.events) :
    ∀ before f after, h.events ++ [e] = before ++ f :: after → f.Answers capacity before := by
  intro before f after eq
  rcases List.eq_nil_or_concat' after with rfl | ⟨between, last, rfl⟩
  · obtain ⟨rfl, rfl⟩ := List.append_singleton_inj.1 eq
    exact right
  · have split : h.events ++ [e] = (before ++ f :: between) ++ [last] := by
      rw [eq]
      simp
    exact kept.answers before f between (List.append_singleton_inj.1 split).1

theorem pinned {name : String} {ty : Ty} {p : Pin} {next : PinBook} (kept : h.Kept capacity)
    (ok : h.book.pin name ty = .ok (p, next)) : Kept capacity ⟨h.events ++ [.pinned p], next⟩ := by
  obtain ⟨rfl, live, same, slot, room⟩ := pin_eq_ok ok
  rw [kept.fixed] at same room
  refine ⟨same, ?_, slot ▸ room, fun other => ?_, ?_⟩
  · rw [pinsOf_pinned, List.flatMap_append, kept.slots, slot]
    rw [List.flatMap_singleton, Pin.slots, List.range_eq_range', List.range_eq_range',
      ← List.range'_append_1, Nat.zero_add]
  · show next.live.filter _ = _
    rw [bound_concat, live, List.filter_cons, kept.bound]
    by_cases eq : name = other
    · simp [boundBy, eq]
    · simp [boundBy, eq]
  · refine kept.answers_concat ⟨kept.nextSlot_eq, ?_⟩
    rw [← kept.nextSlot_eq, ← slot]
    exact room

theorem refused {name : String} {ty : Ty} {fault : Fault} (kept : h.Kept capacity)
    (failed : h.book.pin name ty = .error fault) :
    Kept capacity ⟨h.events ++ [.refused name ty fault], h.book⟩ := by
  refine ⟨kept.fixed, ?_, kept.room, fun other => ?_, kept.answers_concat ?_⟩
  · rw [pinsOf_concat _ rfl]
    exact kept.slots
  · rw [bound_concat]
    exact kept.bound other
  · obtain ⟨full, rfl⟩ := pin_eq_error_iff.1 failed
    rw [kept.fixed, kept.nextSlot_eq] at full
    exact ⟨full, by rw [kept.fixed]⟩

theorem unpinned (kept : h.Kept capacity) (name : String) :
    Kept capacity ⟨h.events ++ [.unpinned name (h.book.unpin name).1], (h.book.unpin name).2⟩ := by
  refine ⟨kept.fixed, ?_, kept.room, fun other => ?_, kept.answers_concat ?_⟩
  · rw [pinsOf_concat _ rfl]
    exact kept.slots
  · rw [bound_concat, filter_unpin, kept.bound]
    rfl
  · intro p
    exact kept.find?_iff

theorem after (kept : h.Kept capacity) (c : Call) : (h.after c).Kept capacity := by
  cases c with
  | pin name ty =>
    unfold History.after
    simp only
    split
    · exact kept.pinned ‹_›
    · exact kept.refused ‹_›
  | unpin name => exact kept.unpinned name

end History.Kept

theorem kept_history (capacity : Nat) (calls : List Call) :
    (history capacity calls).Kept capacity := by
  unfold history
  have run : ∀ h : History, h.Kept capacity → (calls.foldl History.after h).Kept capacity := by
    induction calls with
    | nil => exact fun _ kept => kept
    | cons c calls ih => exact fun h kept => ih _ (kept.after c)
  exact run _ .start

theorem calls_history (capacity : Nat) (calls : List Call) :
    (history capacity calls).events.map Event.call = calls := by
  unfold history
  have step : ∀ (h : History) (c : Call),
      (h.after c).events.map Event.call = h.events.map Event.call ++ [c] := by
    intro h c
    cases c with
    | pin name ty =>
      unfold History.after
      simp only
      split
      · rename_i p next ok
        obtain ⟨rfl, -⟩ := pin_eq_ok ok
        simp [Event.call]
      · simp [Event.call]
    | unpin name => simp [History.after, Event.call]
  have run : ∀ h : History, (calls.foldl History.after h).events.map Event.call
      = h.events.map Event.call ++ calls := by
    induction calls with
    | nil => simp
    | cons c calls ih =>
      intro h
      rw [List.foldl_cons, ih, step]
      simp
  exact run _

/-- **A book of pins is a stack of bindings for each name, over slots that are handed out once.** -/
theorem history_refines (capacity : Nat) (calls : List Call) :
    let h := history capacity calls
    h.events.map Event.call = calls
      ∧ h.book.nextSlot = wordsOf h.events ∧ wordsOf h.events ≤ capacity
      ∧ (pinsOf h.events).flatMap Pin.slots = List.range (wordsOf h.events)
      ∧ (pinsOf h.events).Pairwise (fun p q => p.slots.Disjoint q.slots)
      ∧ (∀ p ∈ pinsOf h.events, ∀ slot ∈ p.slots, slot < capacity)
      ∧ (∀ before e after, h.events = before ++ e :: after → e.Answers capacity before)
      ∧ (∀ name p, h.book.find? name = some p ↔ Latest name h.events p)
      ∧ (∀ name p, h.book.find? name = some p →
          ∃ front back, h.book.live = front ++ p :: back ∧ (∀ q ∈ front, q.name ≠ name)
            ∧ h.book.unpin name = (some p, { h.book with live := front ++ back }))
      ∧ (∀ name, h.book.find? name = none → h.book.unpin name = (none, h.book))
      ∧ (∀ name other, other ≠ name → (h.book.unpin name).2.find? other = h.book.find? other)
      ∧ (∀ name ty fault, h.book.pin name ty = .error fault
          ↔ capacity < wordsOf h.events + ty.width
            ∧ fault = .pinsExhausted name ty.width capacity)
      ∧ ∀ name ty fault, h.book.pin name ty = .error fault →
          h.after (.pin name ty) = ⟨h.events ++ [.refused name ty fault], h.book⟩ := by
  intro h
  have kept : h.Kept capacity := kept_history capacity calls
  have next : h.book.nextSlot = wordsOf h.events := kept.nextSlot_eq
  have slots : (pinsOf h.events).flatMap Pin.slots = List.range (wordsOf h.events) :=
    next ▸ kept.slots
  have room : wordsOf h.events ≤ capacity := next ▸ kept.room
  have once : ((pinsOf h.events).flatMap Pin.slots).Nodup := slots ▸ List.nodup_range
  refine ⟨calls_history capacity calls, next, room, slots, (List.nodup_flatMap.1 once).2, ?_,
    kept.answers, fun _ _ => kept.find?_iff, fun _ _ => unpin_of_find?, fun _ => unpin_of_find?_eq_none,
    fun _ _ => h.book.find?_unpin_of_ne, ?_, ?_⟩
  · intro p mem slot own
    have given : slot ∈ (pinsOf h.events).flatMap Pin.slots := List.mem_flatMap.2 ⟨p, mem, own⟩
    rw [slots, List.mem_range] at given
    omega
  · intro name ty fault
    rw [pin_eq_error_iff, kept.fixed, next]
  · intro name ty fault failed
    simp only [History.after, failed]

/-- The inner pin is ended, but its slots are not handed out again, so that the last call fails. -/
example :
    (history 4 [.pin "x" .number, .pin "x" .str, .unpin "x", .unpin "y", .pin "y" .str]).events
      = [.pinned ⟨"x", .number, 0⟩, .pinned ⟨"x", .str, 1⟩, .unpinned "x" (some ⟨"x", .str, 1⟩),
          .unpinned "y" none, .refused "y" .str (.pinsExhausted "y" 2 4)] := by decide

end PinBook

end PinnedStack
