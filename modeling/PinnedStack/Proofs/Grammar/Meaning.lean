import PinnedStack.Proofs.Grammar.Statement
import PinnedStack.Proofs.Tree.SecondReading

/-!
# The tree that statements stand for

* `Names`, `Binds`, `BindsAll` — a word gives a name and a type, and the name stands for fresh slots.
* `Leaf` — the node of a word or of a literal.
* `Builds` — the nodes of statements. A scope is entered and left with the block that it belongs to:
  behind the block it is what it was before.
* `Builds.live_eq` — statements leave the scope as it is.
* `turnsOf`, `Builds.turns_eq` — branches and loops are numbered in the order of their keywords.
-/

namespace PinnedStack

open Token (Key Word Atom)

/-! ## Names and scopes -/

/-- What is handed out once a pin is in scope. -/
def Supply.enter (s : Supply) (p : Pin) : Supply :=
  { s with book := ⟨p :: s.book.live, s.book.nextSlot + p.ty.width, s.book.capacity⟩ }

/-- What is handed out once a scope is left for the one around it. -/
def Supply.leave (s : Supply) (scope : List Pin) : Supply :=
  { s with book := ⟨scope, s.book.nextSlot, s.book.capacity⟩ }

@[simp] theorem Supply.label_nextLabel (s : Supply) : s.label.2.nextLabel = s.nextLabel + 1 := rfl

@[simp] theorem Supply.leave_nextLabel (s : Supply) (scope : List Pin) :
    (s.leave scope).nextLabel = s.nextLabel := rfl

/-- A word gives a name and a type, as `name` or `name:Type`. -/
inductive Names (g : Globals) (t : Token) (byDefault : Ty) : String → Ty → Prop where
  | bare (plain : splitAtFirst? ':' t.lexeme = none) : Names g t byDefault t.lexeme byDefault
  | typed {name tyText : String} {ty : Ty}
      (split : splitAtFirst? ':' t.lexeme = some (name, tyText))
      (resolved : g.tyOf tyText t.place = .ok ty) : Names g t byDefault name ty

/-- A word binds a name, which has to be valid, to slots that are left in the buffer. -/
structure Binds (g : Globals) (s : Supply) (t : Token) (byDefault : Ty) (p : Pin) (next : Supply) :
    Prop where
  named : Names g t byDefault p.name p.ty
  valid : checkPinName p.name t.place = .ok ()
  slot : p.slot = s.nextSlot
  room : s.nextSlot + p.ty.width ≤ s.book.capacity
  next : next = s.enter p

/-- Words bind names from left to right. -/
inductive BindsAll (g : Globals) (byDefault : Ty) :
    Supply → List Token → List Pin → Supply → Prop where
  | nil (s : Supply) : BindsAll g byDefault s [] [] s
  | cons {s middle next : Supply} {t : Token} {ts : List Token} {p : Pin} {pins : List Pin}
      (first : Binds g s t byDefault p middle) (others : BindsAll g byDefault middle ts pins next) :
      BindsAll g byDefault s (t :: ts) (p :: pins) next

/-! ## Nodes -/

/-- The node of a word or of a literal, and what is handed out behind it. -/
inductive Leaf (g : Globals) (s : Supply) (t : Token) : Node → Supply → Prop where
  | number {value : Int64} (kind : t.kind = .int value) : Leaf g s t (.op (.number value) t.place) s
  | string {text : String} (kind : t.kind = .str text) :
      Leaf g s t (.op (.string (s.literal (utf8Bytes text)).1 (utf8Bytes text).length) t.place)
        (s.literal (utf8Bytes text)).2
  | cstring {text : String} (kind : t.kind = .cstr text) :
      Leaf g s t (.op (.cstring (s.terminated (utf8Bytes text)).1) t.place)
        (s.terminated (utf8Bytes text)).2
  | word {node : Node} (kind : t.kind = .word)
      (resolved : Reader.resolve g s t.lexeme t.place = .ok node) : Leaf g s t node s

/-- The nodes that statements stand for, given what was handed out before them, and what was handed
out behind them. Statements before `else` that give no node leave only the arm behind it. -/
inductive Builds (g : Globals) : Supply → List Statement → List Node → Supply → Prop where
  | nil (s : Supply) : Builds g s [] [] s
  | atom {s middle last : Supply} {token : Atom} {rest : List Statement} {node : Node}
      {nodes : List Node} (here : Leaf g s token.1 node middle)
      (after : Builds g middle rest nodes last) :
      Builds g s (.atom token :: rest) (node :: nodes) last
  | ifThen {s middle last : Supply} {opener : Key .branch} {yes rest : List Statement}
      {stop : Key .semicolon} {arm nodes : List Node}
      (inner : Builds g s.label.2 yes arm middle) (after : Builds g middle rest nodes last) :
      Builds g s (.ifThen opener yes stop :: rest)
        (.ifTrue arm s.nextLabel opener.1.place :: nodes) last
  | ifNo {s between middle last : Supply} {opener : Key .branch} {yes no rest : List Statement}
      {split : Key .otherwise} {stop : Key .semicolon} {arm nodes : List Node}
      (left : Builds g s.label.2 yes [] between) (right : Builds g between no arm middle)
      (after : Builds g middle rest nodes last) :
      Builds g s (.ifElse opener yes split no stop :: rest)
        (.ifFalse arm s.nextLabel opener.1.place :: nodes) last
  | ifBoth {s between middle last : Supply} {opener : Key .branch} {yes no rest : List Statement}
      {split : Key .otherwise} {stop : Key .semicolon} {first : Node} {others arm nodes : List Node}
      (left : Builds g s.label.2 yes (first :: others) between)
      (right : Builds g between no arm middle) (after : Builds g middle rest nodes last) :
      Builds g s (.ifElse opener yes split no stop :: rest)
        (.ifElse (first :: others) arm s.nextLabel opener.1.place :: nodes) last
  | loop {s entered between middle last : Supply} {opener : Key .loop} {iterator : Word}
      {condition body rest : List Statement} {split : Key .body} {stop : Key .semicolon} {p : Pin}
      {test round nodes : List Node} (bound : Binds g s iterator.1 .number p entered)
      (left : Builds g entered.label.2 condition test between)
      (right : Builds g between body round middle)
      (after : Builds g (middle.leave s.book.live) rest nodes last) :
      Builds g s (.loop opener iterator condition split body stop :: rest)
        (.loop p test round entered.nextLabel opener.1.place :: nodes) last
  | bind {s entered middle last : Supply} {opener : Key .bind} {names : List Word}
      {any : names ≠ []} {split : Key .within} {body rest : List Statement} {stop : Key .semicolon}
      {pins : List Pin} {inner nodes : List Node}
      (bound : BindsAll g .runtime s names.unattach pins entered)
      (within : Builds g entered body inner middle)
      (after : Builds g (middle.leave s.book.live) rest nodes last) :
      Builds g s (.bind opener names any split body stop :: rest)
        (Reader.pinNodes pins opener.1.place ++ inner ++ Reader.unpinNodes pins opener.1.place
          ++ nodes) last

/-! ## What statements leave as it is -/

section Keeps

variable {g : Globals} {s next : Supply} {t : Token} {node : Node} {p : Pin} {byDefault : Ty}

theorem Leaf.book_eq (h : Leaf g s t node next) : next.book = s.book := by cases h <;> rfl

theorem Leaf.nextLabel_eq (h : Leaf g s t node next) : next.nextLabel = s.nextLabel := by
  cases h <;> rfl

theorem Binds.live_eq (h : Binds g s t byDefault p next) : next.book.live = p :: s.book.live := by
  rw [h.next]
  rfl

theorem Binds.nextLabel_eq (h : Binds g s t byDefault p next) : next.nextLabel = s.nextLabel := by
  rw [h.next]
  rfl

variable {ts : List Token} {pins : List Pin}

/-- The names of a list are in scope with the last one in front. -/
theorem BindsAll.live_eq (h : BindsAll g byDefault s ts pins next) :
    next.book.live = pins.reverse ++ s.book.live := by
  induction h with
  | nil => rfl
  | cons first _ ih => simp [ih, first.live_eq]

theorem BindsAll.nextLabel_eq (h : BindsAll g byDefault s ts pins next) :
    next.nextLabel = s.nextLabel := by
  induction h with
  | nil => rfl
  | cons first _ ih => exact ih.trans first.nextLabel_eq

theorem BindsAll.length_eq (h : BindsAll g byDefault s ts pins next) : pins.length = ts.length := by
  induction h with
  | nil => rfl
  | cons _ _ ih => simp [ih]

variable {ss : List Statement} {nodes : List Node}

/-- Behind statements the same pins are in scope as before them. -/
theorem Builds.live_eq (h : Builds g s ss nodes next) : next.book.live = s.book.live := by
  induction h with
  | nil => rfl
  | atom here _ ih => rw [ih, here.book_eq]
  | ifThen _ _ inner after => exact after.trans inner
  | ifNo _ _ _ left right after => exact after.trans (right.trans left)
  | ifBoth _ _ _ left right after => exact after.trans (right.trans left)
  | loop _ _ _ _ _ _ after => exact after
  | bind _ _ _ _ after => exact after

end Keeps

/-! ## Numbers -/

theorem Reader.resolve_leaf {g : Globals} {s : Supply} {word : String} {place : Place} {node : Node}
    (ok : resolve g s word place = .ok node) :
    (∃ op, node = .op op place) ∨ ∃ c, node = .call c place := by
  cases resolve_eq_ok.1 ok with
  | global _ _ _ _ named =>
    obtain ⟨_, -, rfl⟩ | ⟨_, -, rfl⟩ | ⟨_, _, -, rfl⟩ := globalNode_cases named
    · exact .inr ⟨_, rfl⟩
    · exact .inl ⟨_, rfl⟩
    · exact .inl ⟨_, rfl⟩
  | _ => exact .inl ⟨_, rfl⟩

mutual

/-- The branches and loops of a node with their numbers, in the order of their keywords. -/
def Node.turns : Node → List (Place × Nat)
  | .op _ _ => []
  | .call _ _ => []
  | .ifTrue body n place => (place, n) :: turnsOf body
  | .ifFalse body n place => (place, n) :: turnsOf body
  | .ifElse yes no n place => (place, n) :: (turnsOf yes ++ turnsOf no)
  | .loop _ condition body n place => (place, n) :: (turnsOf condition ++ turnsOf body)

/-- The branches and loops of nodes with their numbers, in the order of their keywords. -/
def turnsOf : List Node → List (Place × Nat)
  | [] => []
  | n :: ns => n.turns ++ turnsOf ns

end

theorem turnsOf_append (xs ys : List Node) : turnsOf (xs ++ ys) = turnsOf xs ++ turnsOf ys := by
  induction xs with
  | nil => rfl
  | cons n xs ih => simp [turnsOf, ih]

theorem turnsOf_ops (ops : List Op) (place : Place) : turnsOf (ops.map (.op · place)) = [] := by
  induction ops with
  | nil => rfl
  | cons op ops ih => simpa [turnsOf, Node.turns] using ih

/-- The nodes around the body of a `bind` are no branches or loops. -/
theorem turnsOf_bind (pins : List Pin) (body : List Node) (place : Place) :
    turnsOf (Reader.pinNodes pins place ++ body ++ Reader.unpinNodes pins place)
      = turnsOf body := by
  have bound : turnsOf (Reader.pinNodes pins place) = [] := by
    simpa [Reader.pinNodes, Function.comp_def] using turnsOf_ops (pins.reverse.map .pin) place
  have released : turnsOf (Reader.unpinNodes pins place) = [] := by
    simpa [Reader.unpinNodes, Function.comp_def] using turnsOf_ops (pins.map .unpin) place
  simp [turnsOf_append, bound, released]

/-- The places of the keywords that take a number. -/
def turnKeywords (ts : List Token) : List Place :=
  (ts.filter fun t => t.kind = .keyword .branch ∨ t.kind = .keyword .loop).map (·.place)

@[simp] theorem turnKeywords_append (xs ys : List Token) :
    turnKeywords (xs ++ ys) = turnKeywords xs ++ turnKeywords ys := by simp [turnKeywords]

@[simp] theorem turnKeywords_mark {k : Keyword} (m : Key k) (ts : List Token) :
    turnKeywords (m.1 :: ts)
      = if k = .branch ∨ k = .loop then m.1.place :: turnKeywords ts else turnKeywords ts := by
  unfold turnKeywords
  rw [List.filter_cons, m.2]
  cases k <;> simp

@[simp] theorem turnKeywords_atom (t : Atom) (ts : List Token) :
    turnKeywords (t.1 :: ts) = turnKeywords ts := by
  simp [turnKeywords, t.2]

@[simp] theorem turnKeywords_word (w : Word) (ts : List Token) :
    turnKeywords (w.1 :: ts) = turnKeywords ts := by
  simp [turnKeywords, w.2]

@[simp] theorem turnKeywords_words (names : List Word) : turnKeywords names.unattach = [] := by
  induction names with
  | nil => rfl
  | cons w names ih => simpa using ih

theorem Leaf.turns_eq {g : Globals} {s next : Supply} {t : Token} {node : Node}
    (h : Leaf g s t node next) : node.turns = [] := by
  cases h with
  | number => rfl
  | string => rfl
  | cstring => rfl
  | word _ resolved =>
    rcases Reader.resolve_leaf resolved with ⟨op, rfl⟩ | ⟨c, rfl⟩ <;> rfl

/-- **Branches and loops are numbered in the order of their keywords.** -/
theorem Builds.turns_eq {g : Globals} {s next : Supply} {ss : List Statement} {nodes : List Node}
    (h : Builds g s ss nodes next) :
    turnsOf nodes = (turnKeywords (spellAll ss)).zipIdx s.nextLabel
      ∧ next.nextLabel = s.nextLabel + (turnKeywords (spellAll ss)).length := by
  induction h with
  | nil => exact ⟨rfl, rfl⟩
  | atom here after ih =>
    obtain ⟨turns, label⟩ := ih
    simp [turnsOf, here.turns_eq, spellAll, Statement.spell, turns, label, here.nextLabel_eq]
  | ifThen inner after ihInner ihAfter =>
    obtain ⟨turns, label⟩ := ihInner
    obtain ⟨more, last⟩ := ihAfter
    rw [turnsOf, Node.turns, turns, more]
    simp [spellAll, Statement.spell, label, last, List.zipIdx_append]
    omega
  | ifNo left right after ihLeft ihRight ihAfter =>
    obtain ⟨turns, label⟩ := ihLeft
    obtain ⟨turns', label'⟩ := ihRight
    obtain ⟨more, last⟩ := ihAfter
    have none := List.zipIdx_eq_nil_iff.1 turns.symm
    rw [turnsOf, Node.turns, turns', more]
    simp [spellAll, Statement.spell, none, label, label', last, List.zipIdx_append]
    omega
  | ifBoth left right after ihLeft ihRight ihAfter =>
    obtain ⟨turns, label⟩ := ihLeft
    obtain ⟨turns', label'⟩ := ihRight
    obtain ⟨more, last⟩ := ihAfter
    rw [turnsOf, Node.turns, turns, turns', more]
    simp [spellAll, Statement.spell, label, label', last, List.zipIdx_append]
    omega
  | loop bound left right after ihLeft ihRight ihAfter =>
    obtain ⟨turns, label⟩ := ihLeft
    obtain ⟨turns', label'⟩ := ihRight
    obtain ⟨more, last⟩ := ihAfter
    rw [turnsOf, Node.turns, turns, turns', more]
    simp [spellAll, Statement.spell, label, label', last, List.zipIdx_append, bound.nextLabel_eq]
    omega
  | bind bound within after ihWithin ihAfter =>
    obtain ⟨turns, label⟩ := ihWithin
    obtain ⟨more, last⟩ := ihAfter
    rw [turnsOf_append, turnsOf_bind, turns, more]
    simp [spellAll, Statement.spell, label, last, List.zipIdx_append, bound.nextLabel_eq]
    omega

end PinnedStack
