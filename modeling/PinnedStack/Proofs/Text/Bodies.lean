import PinnedStack.Proofs.Grammar.Items
import PinnedStack.Proofs.Text.Names

/-!
# Remarks and labels of bodies

* `Node.remark?` — the remark in front of the lines of a node.
* `Node.Tidy` — the remark of a node is unbroken, and the label whose address it pushes has its entry
  in the tables.
* `Tables.Grows`, `Builds.grows` — a label, once given, keeps its entry.
* `Builds.tidy`, `Elaborates.tidy`, `Program.tidy_of_ofText` — so it is for all nodes of a program.
-/

namespace PinnedStack

open Token (Key Word Atom)

/-! ## Nodes -/

/-- The remark in front of the lines of a node. -/
def Node.remark? : Node → Option String
  | .op _ _ => none
  | .call c _ => some s!"call {c.name}"
  | .ifTrue _ _ place => some s!"if ({place.text})"
  | .ifFalse _ _ place => some s!"if ({place.text})"
  | .ifElse _ _ _ place => some s!"if ({place.text})"
  | .loop iterator _ _ _ place => some s!"loop {iterator.name} ({place.text})"

/-- A node whose remark is unbroken and whose label is one of those given. -/
structure Node.Tidy (labels : List String) (n : Node) : Prop where
  remark : ∀ text ∈ n.remark?, Unbroken text
  label : ∀ l ∈ n.label?, l ∈ labels

/-- All nodes of a body are tidy. -/
def TidyBody (labels : List String) (nodes : List Node) : Prop := ∀ n ∈ nodesIn nodes, n.Tidy labels

section Nodes

variable {labels more : List String} {nodes xs ys : List Node}

theorem TidyBody.mono (h : TidyBody labels nodes) (within : labels ⊆ more) : TidyBody more nodes :=
  fun n mem => ⟨(h n mem).remark, fun l held => within ((h n mem).label l held)⟩

theorem TidyBody.append (left : TidyBody labels xs) (right : TidyBody labels ys) :
    TidyBody labels (xs ++ ys) := by
  intro n mem
  rw [nodesIn_append] at mem
  exact (List.mem_append.1 mem).elim (left n) (right n)

theorem TidyBody.cons {n : Node} (first : ∀ m ∈ n.within, m.Tidy labels)
    (others : TidyBody labels nodes) : TidyBody labels (n :: nodes) :=
  fun m mem => (List.mem_append.1 mem).elim (first m) (others m)

theorem TidyBody.nil : TidyBody labels [] := nofun

theorem TidyBody.pinNodes (pins : List Pin) (place : Place) :
    TidyBody labels (Reader.pinNodes pins place) := by
  intro n mem
  rw [nodesIn_pinNodes] at mem
  obtain ⟨p, -, rfl⟩ := List.mem_map.1 mem
  exact ⟨nofun, nofun⟩

theorem TidyBody.unpinNodes (pins : List Pin) (place : Place) :
    TidyBody labels (Reader.unpinNodes pins place) := by
  intro n mem
  rw [nodesIn_unpinNodes] at mem
  obtain ⟨p, -, rfl⟩ := List.mem_map.1 mem
  exact ⟨nofun, nofun⟩

theorem Place.unbroken_remark {p : Place} (file : Unbroken p.file) :
    Unbroken s!"if ({p.text})" :=
  ((Unbroken.append (a := "if (") (by decide) (Place.unbroken_text file)).append (b := ")")
    (by decide))

theorem Place.unbroken_loopRemark {p : Place} {name : String} (file : Unbroken p.file)
    (whole : Unbroken name) : Unbroken s!"loop {name} ({p.text})" :=
  ((((Unbroken.append (a := "loop ") (by decide) whole).append (b := " (") (by decide)).append
    (Place.unbroken_text file)).append (b := ")") (by decide))

end Nodes

/-! ## Words -/

section Words

variable {g : Globals} {s next : Supply} {file : String}

theorem Globals.Stored.mono {tables more : Tables} (h : g.Stored tables)
    (within : tables.labels ⊆ more.labels) : g.Stored more :=
  fun e mem label ty eq => within (h e mem label ty eq)

/-- No word stands for an operation on a literal or a memory, but for the names of memories. -/
theorem Op.label?_of_builtin? {word : String} {op : Op} (found : builtin? word = some op) :
    op.label? = none := by
  unfold builtin? at found
  split at found
  · cases found
    rfl
  · split at found
    · obtain ⟨n, -, rfl⟩ := Option.map_eq_some_iff.1 found
      rfl
    · obtain ⟨entry, held, rfl⟩ := Option.map_eq_some_iff.1 found
      have table : ∀ e ∈ named, e.2.label? = none := by decide
      exact table entry (List.mem_of_find?_eq_some held)

theorem Op.label?_of_recordOp {word : String} {place : Place} {op : Op}
    (ok : Reader.recordOp g word place = .ok (some op)) : op.label? = none := by
  obtain ⟨_, -, rfl⟩ | ⟨_, -, rfl⟩ | ⟨_, _, _, _, -, -, -, rfl⟩ := Reader.recordOp_cases ok
  all_goals rfl

theorem Reader.tidy_resolve {word : String} {place : Place} {node : Node}
    (stored : g.Stored s.tables) (whole : Unbroken word)
    (ok : resolve g s word place = .ok node) : ∀ n ∈ node.within, n.Tidy s.tables.labels := by
  have quiet : ∀ {op : Op}, op.label? = none → ∀ n ∈ (Node.op op place).within,
      n.Tidy s.tables.labels := by
    intro op none n mem
    obtain rfl := List.mem_singleton.1 mem
    exact ⟨nofun, by simp [Node.label?, none]⟩
  cases resolve_eq_ok.1 ok with
  | pinned | update => exact quiet rfl
  | builtin _ _ named => exact quiet (Op.label?_of_builtin? named)
  | record _ _ _ named => exact quiet (Op.label?_of_recordOp named)
  | global _ _ _ _ named =>
    obtain ⟨_, -, rfl⟩ | ⟨_, -, rfl⟩ | ⟨label, ty, found, rfl⟩ := globalNode_cases named
    · intro n mem
      obtain rfl := List.mem_singleton.1 mem
      refine ⟨?_, nofun⟩
      rintro text ⟨⟩
      exact Unbroken.append (a := "call ") (by decide) whole
    · exact quiet rfl
    · obtain ⟨entry, held, eq⟩ := Option.map_eq_some_iff.1 found
      intro n mem
      obtain rfl := List.mem_singleton.1 mem
      refine ⟨nofun, ?_⟩
      rintro l ⟨⟩
      exact stored entry (List.mem_of_find?_eq_some held) label ty eq

end Words

/-! ## Tables -/

/-- Tables with the same memories as other tables, and with all their literals in front. -/
structure Tables.Grows (t more : Tables) : Prop where
  literals : t.literals <+: more.literals
  regions : more.regions = t.regions

namespace Tables

theorem Grows.refl (t : Tables) : t.Grows t := ⟨List.prefix_refl _, rfl⟩

theorem Grows.trans {a b c : Tables} (first : a.Grows b) (second : b.Grows c) : a.Grows c :=
  ⟨first.literals.trans second.literals, second.regions.trans first.regions⟩

theorem mem_labelledLiterals {t : Tables} {label : String} {bytes : List UInt8} :
    (label, bytes) ∈ t.labelledLiterals ↔
      ∃ i, t.literals[i]? = some bytes ∧ literalLabel i = label := by
  simp [labelledLiterals, List.mk_mem_zipIdx_iff_getElem?]

theorem labelled_unique {tables : Tables} {label : String} {a b : List UInt8}
    (first : (label, a) ∈ tables.labelledLiterals) (second : (label, b) ∈ tables.labelledLiterals) :
    a = b := by
  obtain ⟨i, left, rfl⟩ := mem_labelledLiterals.1 first
  obtain ⟨j, right, same⟩ := mem_labelledLiterals.1 second
  obtain rfl := label_injective toList_literalLabel same
  exact Option.some.inj (left.symm.trans right)

theorem Grows.labelled {t more : Tables} (h : t.Grows more) :
    t.labelledLiterals ⊆ more.labelledLiterals :=
  (labelled_mono h.literals).subset

theorem Grows.labels {t more : Tables} (h : t.Grows more) : t.labels ⊆ more.labels := by
  intro label mem
  refine List.mem_append.2 ((List.mem_append.1 mem).imp (fun mem => ?_) fun mem => ?_)
  · obtain ⟨i, bound, rfl⟩ := List.mem_map.1 mem
    have bound := List.mem_range.1 bound
    exact List.mem_map_of_mem
      (List.mem_range.2 (Nat.lt_of_lt_of_le bound h.literals.length_le))
  · rwa [h.regions]

theorem label_mem_labels {t : Tables} {label : String} {bytes : List UInt8}
    (mem : (label, bytes) ∈ t.labelledLiterals) : label ∈ t.labels := by
  obtain ⟨i, here, rfl⟩ := mem_labelledLiterals.1 mem
  obtain ⟨bound, -⟩ := List.getElem?_eq_some_iff.1 here
  exact List.mem_append_left _ (List.mem_map_of_mem (List.mem_range.2 bound))

end Tables

/-- A literal has its entry, and the entries before it stay. -/
theorem Supply.labelled_literal (s : Supply) (bytes : List UInt8) :
    ((s.literal bytes).1, bytes) ∈ (s.literal bytes).2.tables.labelledLiterals
      ∧ s.tables.Grows (s.literal bytes).2.tables := by
  rw [Tables.mem_labelledLiterals]
  unfold literal Tables.addLiteral
  cases found : s.tables.literals.idxOf? bytes with
  | some i =>
    obtain ⟨bound, here, -⟩ := List.idxOf?_eq_some_iff.1 found
    exact ⟨⟨i, by rw [List.getElem?_eq_getElem bound, here], rfl⟩, .refl _⟩
  | none =>
    exact ⟨⟨s.tables.literals.length, by simp, rfl⟩, List.prefix_append _ _, rfl⟩

/-! ## Statements -/

section Statements

variable {g : Globals} {s next : Supply} {t : Token} {node : Node} {p : Pin} {byDefault : Ty}
  {file : String}

theorem Leaf.grows (h : Leaf g s t node next) : s.tables.Grows next.tables := by
  cases h with
  | number => exact .refl _
  | string => exact (s.labelled_literal _).2
  | cstring => exact (s.labelled_literal _).2
  | word => exact .refl _

theorem Binds.tables_eq (h : Binds g s t byDefault p next) : next.tables = s.tables := by
  rw [h.next]
  rfl

theorem BindsAll.tables_eq {ts : List Token} {pins : List Pin}
    (h : BindsAll g byDefault s ts pins next) : next.tables = s.tables := by
  induction h with
  | nil => rfl
  | cons first _ ih => exact ih.trans first.tables_eq

theorem BindsParams.tables_eq {params : List (String × Ty)} {pins : List Pin}
    (h : BindsParams s params pins next) : next.tables = s.tables := by
  induction h with
  | nil => rfl
  | cons _ _ ih => exact ih

/-- **A label, once given, keeps its entry.** -/
theorem Builds.grows {ss : List Statement} {nodes : List Node} (h : Builds g s ss nodes next) :
    s.tables.Grows next.tables := by
  induction h with
  | nil => exact .refl _
  | atom here _ ih => exact here.grows.trans ih
  | ifThen _ _ inner after => exact inner.trans after
  | ifNo _ _ _ left right after => exact (left.trans right).trans after
  | ifBoth _ _ _ left right after => exact (left.trans right).trans after
  | loop bound _ _ _ left right after =>
    exact (bound.tables_eq ▸ left.trans right : Tables.Grows _ _).trans after
  | bind bound _ _ inner after => exact (bound.tables_eq ▸ inner : Tables.Grows _ _).trans after

theorem Leaf.tidy (h : Leaf g s t node next) (stored : g.Stored s.tables)
    (spelled : t.Spelled file) : ∀ n ∈ node.within, n.Tidy next.tables.labels := by
  cases h with
  | number =>
    intro n mem
    obtain rfl := List.mem_singleton.1 mem
    exact ⟨nofun, nofun⟩
  | string =>
    intro n mem
    obtain rfl := List.mem_singleton.1 mem
    refine ⟨nofun, ?_⟩
    rintro l ⟨⟩
    exact Tables.label_mem_labels (s.labelled_literal _).1
  | cstring =>
    intro n mem
    obtain rfl := List.mem_singleton.1 mem
    refine ⟨nofun, ?_⟩
    rintro l ⟨⟩
    exact Tables.label_mem_labels (s.labelled_literal _).1
  | word kind resolved => exact Reader.tidy_resolve stored (spelled.unbroken kind) resolved

theorem Names.unbroken {name : String} {ty : Ty} (h : Names g t byDefault name ty)
    (whole : Unbroken t.lexeme) : Unbroken name := by
  cases h with
  | bare => exact whole
  | typed split => exact whole.of_split split

theorem Token.Spelled.unbroken_file (h : t.Spelled file) (whole : Unbroken file) :
    Unbroken t.place.file := h.file ▸ whole

/-- A branch or loop adds its remark to what is inside it. -/
theorem Node.tidy_within {n : Node} {labels : List String} {inner : List Node}
    (within : n.within = n :: nodesIn inner) (none : n.label? = none)
    (remark : ∀ text ∈ n.remark?, Unbroken text) (tidy : TidyBody labels inner) :
    ∀ m ∈ n.within, m.Tidy labels := by
  rw [within]
  exact List.forall_mem_cons.2 ⟨⟨remark, by simp [none]⟩, tidy⟩

/-- **The nodes of statements are tidy.** -/
theorem Builds.tidy (whole : Unbroken file) {ss : List Statement} {nodes : List Node}
    (h : Builds g s ss nodes next) (stored : g.Stored s.tables)
    (spelled : ∀ t ∈ spellAll ss, t.Spelled file) : TidyBody next.tables.labels nodes := by
  induction h with
  | nil => exact .nil
  | atom here after ih =>
    obtain ⟨first, others⟩ := List.forall_mem_append.1 spelled
    have tidy : TidyBody _ [_] :=
      .cons (here.tidy stored (first _ (List.mem_singleton_self _))) .nil
    exact (tidy.mono after.grows.labels).append (ih (stored.mono here.grows.labels) others)
  | ifThen inner after ihInner ihAfter =>
    simp only [spellAll, Statement.spell, List.forall_mem_append, List.forall_mem_cons] at spelled
    obtain ⟨⟨opener, yes, -⟩, rest⟩ := spelled
    have arm := (ihInner stored yes).mono after.grows.labels
    refine .cons (Node.tidy_within rfl rfl ?_ arm) (ihAfter (stored.mono inner.grows.labels) rest)
    rintro text ⟨⟩
    exact Place.unbroken_remark (opener.unbroken_file whole)
  | ifNo left right after ihLeft ihRight ihAfter =>
    simp only [spellAll, Statement.spell, List.forall_mem_append, List.forall_mem_cons] at spelled
    obtain ⟨⟨opener, -, -, no, -⟩, rest⟩ := spelled
    have between := stored.mono left.grows.labels
    have arm := (ihRight between no).mono after.grows.labels
    refine .cons (Node.tidy_within rfl rfl ?_ arm) (ihAfter (between.mono right.grows.labels) rest)
    rintro text ⟨⟩
    exact Place.unbroken_remark (opener.unbroken_file whole)
  | ifBoth left right after ihLeft ihRight ihAfter =>
    simp only [spellAll, Statement.spell, List.forall_mem_append, List.forall_mem_cons] at spelled
    obtain ⟨⟨opener, yes, -, no, -⟩, rest⟩ := spelled
    have between := stored.mono left.grows.labels
    have arms := ((ihLeft stored yes).mono right.grows.labels).append (ihRight between no)
    refine .cons (Node.tidy_within (by rw [nodesIn_append, Node.within]) rfl ?_
      (arms.mono after.grows.labels)) (ihAfter (between.mono right.grows.labels) rest)
    rintro text ⟨⟩
    exact Place.unbroken_remark (opener.unbroken_file whole)
  | @loop _ _ _ _ _ _ iterator _ _ _ _ _ _ _ _ _ bound left right after ihLeft ihRight ihAfter =>
    simp only [spellAll, Statement.spell, List.forall_mem_append, List.forall_mem_cons] at spelled
    obtain ⟨⟨opener, name, condition, -, body, -⟩, rest⟩ := spelled
    have between : g.Stored _ := Globals.Stored.mono (bound.tables_eq ▸ stored) left.grows.labels
    have rounds := ((ihLeft (bound.tables_eq ▸ stored) condition).mono right.grows.labels).append
      (ihRight between body)
    refine .cons (Node.tidy_within (by rw [nodesIn_append, Node.within]) rfl ?_
      (rounds.mono after.grows.labels)) (ihAfter (between.mono right.grows.labels) rest)
    rintro text ⟨⟩
    exact Place.unbroken_loopRemark (opener.unbroken_file whole)
      (bound.named.unbroken (name.unbroken iterator.2))
  | bind bound within after ihWithin ihAfter =>
    simp only [spellAll, Statement.spell, List.forall_mem_append, List.forall_mem_cons] at spelled
    obtain ⟨⟨opener, -, -, body, -⟩, rest⟩ := spelled
    have entered : g.Stored _ := bound.tables_eq ▸ stored
    have inner := (ihWithin entered body).mono after.grows.labels
    exact (((TidyBody.pinNodes _ _).append inner).append (.unpinNodes _ _)).append
      (ihAfter (entered.mono within.grows.labels) rest)

end Statements

/-! ## Programs -/

theorem Elaborates.grows {g : Globals} {s last : Supply} {heads : List Head} {items : List Item}
    {fs : List Func} {main : List Node} (h : Elaborates g s heads items fs main last) :
    s.tables.Grows last.tables := by
  induction h with
  | nil => exact .refl _
  | statement built _ ih => exact built.grows.trans ih
  | stray _ ih => exact ih
  | plain _ ih => exact ih
  | function bound built _ ih =>
    exact (bound.tables_eq ▸ built.grows : Tables.Grows _ _).trans ih

/-- **The nodes of items are tidy.** -/
theorem Elaborates.tidy {g : Globals} {s last : Supply} {heads : List Head} {items : List Item}
    {fs : List Func} {main : List Node} {file : String} (whole : Unbroken file)
    (h : Elaborates g s heads items fs main last) (stored : g.Stored s.tables)
    (spelled : ∀ t ∈ items.flatMap Item.spell, t.Spelled file) :
    (∀ f ∈ fs, TidyBody last.tables.labels f.body) ∧ TidyBody last.tables.labels main := by
  induction h with
  | nil => exact ⟨nofun, .nil⟩
  | statement built after ih =>
    simp only [List.flatMap_cons, Item.spell, List.forall_mem_append] at spelled
    obtain ⟨functions, main⟩ := ih (stored.mono built.grows.labels) spelled.2
    have nodes := built.tidy whole stored (by simpa [spellAll] using spelled.1)
    exact ⟨functions, (nodes.mono after.grows.labels).append main⟩
  | stray after ih =>
    simp only [List.flatMap_cons, List.forall_mem_append] at spelled
    exact ih stored spelled.2
  | plain after ih =>
    simp only [List.flatMap_cons, List.forall_mem_append] at spelled
    exact ih stored spelled.2
  | function bound built after ih =>
    simp only [List.flatMap_cons, Item.spell, List.forall_mem_append, List.forall_mem_cons]
      at spelled
    obtain ⟨⟨-, -, -, body, -⟩, rest⟩ := spelled
    have entered : g.Stored _ := bound.tables_eq ▸ stored
    obtain ⟨functions, main⟩ := ih (entered.mono built.grows.labels) rest
    have nodes := (built.tidy whole entered body).mono after.grows.labels
    refine ⟨?_, main⟩
    exact List.forall_mem_cons.2
      ⟨((TidyBody.pinNodes _ _).append nodes).append (.unpinNodes _ _), functions⟩

/-- All text that the lines of a program take from its source is unbroken. -/
structure Program.Tidy (p : Program) (tables : Tables) : Prop where
  bodies : ∀ f ∈ p.bodies, TidyBody tables.labels f.body
  functions : ∀ f ∈ p.functions, Unbroken s!"{f.name} {f.contract.text} ({f.place.text})"
  regions : ∀ r ∈ tables.regions, Unbroken r.name

/-- The names of memories are unbroken, whatever the file is called. -/
theorem Program.unbroken_regions {limits : Limits} {source file : String} {p : Program}
    {tables : Tables} (ok : Program.ofText limits source file = .ok (p, tables)) :
    ∀ r ∈ tables.regions, Unbroken r.name := by
  obtain ⟨text, lexed, spelled⟩ := ofText_eq_ok ok
  obtain ⟨survey, items, last, first, -, elaborates, rfl⟩ := elaborates_of_ofTokens spelled
  have kept := Survey.ofTokens_kept first fun t held word =>
    (Scanned.spelled_of_ofText lexed t held).unbroken word
  exact elaborates.grows.regions ▸ kept.regions

/-- **All text that the lines of a program take from its source is unbroken**, and the labels that it
names have their entries. -/
theorem Program.tidy_of_ofText {limits : Limits} {source file : String} {p : Program}
    {tables : Tables} (whole : Unbroken file)
    (ok : Program.ofText limits source file = .ok (p, tables)) : p.Tidy tables := by
  have regions := unbroken_regions ok
  obtain ⟨text, lexed, spelled⟩ := ofText_eq_ok ok
  have words := Scanned.spelled_of_ofText lexed
  obtain ⟨survey, items, last, first, tokens, elaborates, rfl⟩ := elaborates_of_ofTokens spelled
  obtain ⟨other, first', -, describes⟩ := readings_of_ofTokens spelled
  cases first.symm.trans first'
  have kept := Survey.ofTokens_kept first fun t held word => (words t held).unbroken word
  obtain ⟨functions, main⟩ := elaborates.tidy whole kept.memories (tokens ▸ words)
  refine ⟨fun f mem => ?_, fun f mem => ?_, regions⟩
  · rcases List.mem_append.1 mem with mem | mem
    · exact functions f mem
    · exact List.mem_singleton.1 mem ▸ main
  · obtain ⟨h, held, call, -, place⟩ := exists_of_forall₂ describes f mem
    obtain ⟨name, here, contract⟩ := Survey.ofTokens_heads first words h held
    have named : f.name = h.name := congrArg Call.name call
    have signed : f.contract = h.signature.contract := congrArg Call.contract call
    have stands : Unbroken f.place.text := Place.unbroken_text (place ▸ here ▸ whole)
    exact (((((named ▸ name).append (b := " ") (by decide)).append (signed ▸ contract)).append
      (b := " (") (by decide)).append stands).append (b := ")") (by decide)

end PinnedStack
