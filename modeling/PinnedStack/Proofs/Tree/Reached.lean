import PinnedStack.Proofs.Constant.Trees
import PinnedStack.Proofs.Pins.Lexical
import PinnedStack.Proofs.Pins.Reserved
import PinnedStack.Proofs.Text.Bodies
import PinnedStack.Proofs.Tree.Given
import PinnedStack.Proofs.Tree.Kept

/-!
# Names lead to their definitions

* `Globals.Plainly` — a name in scope has no dot, and a record has no two fields of one name.
* `Globals.Takes` — a word loads or stores a record: its name, with a mark at the end.
* `Reader.resolve_takes`, `Reader.resolve_global`, `Reader.resolve_field` — what such words, other
  names in scope and fields are resolved to where no pin is in the way.
* `Survey.Meets` — the second reading comes to a word where a statement may stand.
* `Program.Means` — the node of a word that means a definition.
* `Program.definitions_reached` — the name of a definition leads to it, unless it is the name of a
  record with a mark at the end.
-/

namespace PinnedStack

/-! ## Marks and dots -/

theorem withoutLast?_eq_some {mark : Char} {word base : String} :
    withoutLast? mark word = some base ↔ word = base.push mark := by
  unfold withoutLast?
  constructor
  · intro h
    split at h
    · cases h
    · rename_i c rest reversed
      split at h
      · rename_i same
        cases h
        apply String.toList_inj.1
        have whole := congrArg List.reverse reversed
        rw [List.reverse_reverse] at whole
        simp [whole, same]
      · cases h
  · rintro rfl
    simp

theorem splitChars?_append {mark : Char} {before : List Char} (absent : mark ∉ before)
    (rest : List Char) : splitChars? mark (before ++ mark :: rest) = some (before, rest) := by
  induction before with
  | nil => simp [splitChars?]
  | cons c before ih =>
    simp only [List.mem_cons, not_or] at absent
    obtain ⟨other, absent⟩ := absent
    simp [splitChars?, Ne.symm other, ih absent]

theorem splitAtFirst?_eq_none {mark : Char} {word : String} (absent : mark ∉ word.toList) :
    splitAtFirst? mark word = none := by
  cases split : splitAtFirst? mark word with
  | none => rfl
  | some parts =>
    obtain ⟨⟨before, after⟩, here, -⟩ := Option.map_eq_some_iff.1 split
    rw [(splitChars?_eq_some here).1] at absent
    simp at absent

theorem Op.builtin?_eq_none {word : String} (dotted : '.' ∈ word.toList) : builtin? word = none := by
  cases named : builtin? word with
  | none => rfl
  | some op =>
    unfold builtin? at named
    split at named
    · rename_i b symbol
      rw [← Binary.symbol_of_ofSymbol? symbol] at dotted
      cases b <;> simp [Binary.symbol] at dotted
    · split at named
      · rename_i tail prefixed
        obtain ⟨n, counted, -⟩ := Option.map_eq_some_iff.1 named
        have whole := List.isPrefixOf?_eq_some_iff_append_eq.1 prefixed
        rw [← whole] at dotted
        unfold syscallCount? at counted
        split at counted
        · split at counted
          · rename_i digit
            simp only [List.mem_append, List.mem_singleton] at dotted
            rcases dotted with letter | rfl
            · exact absurd letter (by decide)
            · exact absurd digit.1 (by decide)
          · cases counted
        · cases counted
      · obtain ⟨entry, here, -⟩ := Option.map_eq_some_iff.1 named
        have spelled : entry.1 = word := by simpa using List.find?_some here
        have none : ∀ entry ∈ Op.named, '.' ∉ entry.1.toList := by decide
        exact absurd (spelled ▸ dotted) (none entry (List.mem_of_find?_eq_some here))

/-! ## Names in scope -/

/-- What holds of a name in scope: it has no dot, and a record has no two fields of one name. -/
structure Meaning.Plainly (name : String) (meaning : Meaning) : Prop where
  undotted : '.' ∉ name.toList
  fields : ∀ r, meaning = .record r → (r.fields.map (·.name)).Nodup

theorem Globals.undotted_of_define {g next : Globals} {name : String} {meaning : Meaning}
    {place : Place} (defined : g.define name meaning place = .ok next) : '.' ∉ name.toList := by
  have whole := (define_eq_ok.1 defined).2.1
  intro dotted
  simp [isMisspelled, dotted] at whole

namespace Survey

theorem nodup_of_fieldsOf {g : Globals} {record : String} {fields out : List PinnedStack.Field}
    {tokens : List Token} (distinct : (fields.map (·.name)).Nodup)
    (ok : fieldsOf g record fields tokens = .ok out) : (out.map (·.name)).Nodup := by
  induction tokens generalizing fields with
  | nil =>
    cases ok
    exact distinct
  | cons t tokens ih =>
    rw [fieldsOf] at ok
    split at ok
    case h_2 => cases ok
    rename_i more here
    obtain ⟨field, tyText, ty, kind, -, -, -, -, -, fresh, rfl⟩ := addField_eq_ok.1 here
    refine ih ?_ ok
    rw [List.map_append]
    refine List.nodup_append.2 ⟨distinct, by simp, ?_⟩
    rintro name held other mem rfl
    obtain rfl : name = field := by simpa using mem
    obtain ⟨f, known, same⟩ := List.mem_map.1 held
    exact Bool.eq_false_iff.1 fresh (List.any_eq_true.2 ⟨f, known, by simpa using same⟩)

theorem nodup_of_recordOf {g : Globals} {name : Token} {tokens : List Token} {r : Record}
    (ok : recordOf g name tokens = .ok r) : (r.fields.map (·.name)).Nodup := by
  obtain ⟨fields, spelled, -, rfl⟩ := recordOf_eq_ok.1 ok
  have none : (([] : List PinnedStack.Field).map (·.name)).Nodup := List.nodup_nil
  exact nodup_of_fieldsOf none spelled

theorem plainly_of_ofTokens {limits : Limits} {text : Scanned} {s : Survey}
    (ok : ofTokens limits text = .ok s) : s.globals.Each Meaning.Plainly := by
  have begun : (start limits).globals.Each Meaning.Plainly := by
    intro e mem
    simp only [start, Globals.initial, List.mem_cons, List.not_mem_nil, or_false] at mem
    rcases mem with rfl | rfl
    · refine ⟨by decide, fun r eq => ?_⟩
      cases eq
      decide
    · refine ⟨by decide, fun r eq => ?_⟩
      cases eq
      decide
  refine each_of_run (fun accepts => ?_) begun (ofTokens_eq_ok ok).1
  obtain ⟨place, defined⟩ := accepts.defined
  refine ⟨Globals.undotted_of_define defined, fun r eq => ?_⟩
  obtain ⟨_, _, read⟩ := accepts.read r eq
  exact nodup_of_recordOf read

end Survey

/-- Where no two fields have one name, each is found under its own. -/
theorem Record.field?_eq_some {r : Record} (distinct : (r.fields.map (·.name)).Nodup)
    {f : PlacedField} (mem : f ∈ r.layout) : r.field? f.name = some f := by
  have names : r.layout.map (·.name) = r.fields.map (·.name) := by
    have fields : r.fields.zipIdx.map Prod.fst = r.fields := by simp
    rw [layout, List.map_map]
    conv_rhs => rw [← fields, List.map_map]
    rfl
  cases found : r.field? f.name with
  | none => simpa using List.find?_eq_none.1 found f mem
  | some other =>
    have same : other.name = f.name := by simpa using List.find?_some found
    exact congrArg some (List.inj_on_of_nodup_map (names ▸ distinct)
      (List.mem_of_find?_eq_some found) mem same)

/-! ## What words are resolved to -/

/-- A word loads or stores a record: it is the name of a record with a mark at the end. -/
inductive Globals.Takes (g : Globals) : String → Op → Prop where
  | load {base : String} {r : Record} (known : g.record? base = some r) :
      g.Takes (base.push '@') (.load (.record r))
  | store {base : String} {r : Record} (known : g.record? base = some r) :
      g.Takes (base.push '!') (.store (.record r))

theorem Globals.Takes.getLast? {g : Globals} {word : String} {op : Op} (takes : g.Takes word op) :
    word.toList.getLast? = some '@' ∨ word.toList.getLast? = some '!' := by
  cases takes <;> simp

namespace Reader

variable {g : Globals} {s : Supply} {word : String} {place : Place}

theorem recordOp_of_takes {op : Op} (takes : g.Takes word op) :
    recordOp g word place = .ok (some op) := by
  cases takes with
  | @load base r known =>
    have marked : withoutLast? '@' (base.push '@') = some base := withoutLast?_eq_some.2 rfl
    simp [recordOp, marked, known]
  | @store base r known =>
    have marked : withoutLast? '!' (base.push '!') = some base := withoutLast?_eq_some.2 rfl
    have other : withoutLast? '@' (base.push '!') = none := by simp [withoutLast?]
    simp [recordOp, marked, other, known]

/-- What is left of a recordOp's cases where a word loads and stores nothing. -/
theorem recordOp_untaken (untaken : ∀ op, ¬ g.Takes word op) :
    (withoutLast? '@' word).bind g.record? = none
      ∧ (withoutLast? '!' word).bind g.record? = none := by
  constructor
  · refine Option.eq_none_iff_forall_ne_some.2 fun r here => ?_
    obtain ⟨base, marked, known⟩ := Option.bind_eq_some_iff.1 here
    rw [withoutLast?_eq_some.1 marked] at untaken
    exact untaken _ (.load known)
  · refine Option.eq_none_iff_forall_ne_some.2 fun r here => ?_
    obtain ⟨base, marked, known⟩ := Option.bind_eq_some_iff.1 here
    rw [withoutLast?_eq_some.1 marked] at untaken
    exact untaken _ (.store known)

/-- Where no pin and no operation is meant, a word means an operation on a record or a name in
scope. -/
theorem resolve_of_free (free : Free s.book.live word) (none : Op.builtin? word = none) :
    resolve g s word place
      = match recordOp g word place with
        | .error d => .error d
        | .ok (some op) => .ok (.op op place)
        | .ok .none => globalNode g word place := by
  have unnamed : s.find? word = .none := free.1
  have unmarked : (withoutLast? '!' word).bind s.find? = .none := free.2
  have read := resolve.eq_def g s word place
  simp only [unnamed, unmarked, none] at read
  exact read

/-- The name of a record with a mark at the end loads or stores it. -/
theorem resolve_takes (free : Free s.book.live word) (none : Op.builtin? word = none) {op : Op}
    (takes : g.Takes word op) : resolve g s word place = .ok (.op op place) := by
  rw [resolve_of_free free none, recordOp_of_takes takes]

theorem resolve_global (free : Free s.book.live word) (none : Op.builtin? word = none)
    (undotted : '.' ∉ word.toList) (untaken : ∀ op, ¬ g.Takes word op) :
    resolve g s word place = globalNode g word place := by
  obtain ⟨loads, stores⟩ := recordOp_untaken untaken
  have plain : recordOp g word place = .ok .none := by
    simp [recordOp, loads, stores, splitAtFirst?_eq_none undotted]
  rw [resolve_of_free free none, plain]

/-- The name of a record and the name of a field with a dot between them mean that field. -/
theorem resolve_field {name : String} {r : Record} {f : PlacedField}
    (scope : g.Each Meaning.Plainly) (pins : ∀ p ∈ s.book.live, '.' ∉ p.name.toList)
    (known : g.record? name = some r) (mem : f ∈ r.layout) :
    resolve g s (name ++ "." ++ f.name) place = .ok (.op (.field r f) place) := by
  have plainly := scope.of_find? (Globals.record?_eq_some.1 known)
  have dotted : '.' ∈ (name ++ "." ++ f.name).toList := by simp
  -- Neither a pin nor a record has a name with a dot, not even with a mark behind it.
  have marked : ∀ mark {base}, mark ≠ '.' →
      withoutLast? mark (name ++ "." ++ f.name) = some base → '.' ∈ base.toList := by
    intro mark base other here
    rw [withoutLast?_eq_some.1 here] at dotted
    simpa [Ne.symm other] using dotted
  have free : Free s.book.live (name ++ "." ++ f.name) := by
    constructor
    · exact List.find?_eq_none.2 fun p live same =>
        pins p live ((beq_iff_eq.1 same).symm ▸ dotted)
    · refine Option.eq_none_iff_forall_ne_some.2 fun p here => ?_
      obtain ⟨base, taken, live⟩ := Option.bind_eq_some_iff.1 here
      have same : p.name = base := by simpa using List.find?_some live
      exact pins p (List.mem_of_find?_eq_some live) (same ▸ marked '!' (by decide) taken)
  have untaken : ∀ op, ¬ g.Takes (name ++ "." ++ f.name) op := by
    intro op takes
    generalize whole : name ++ "." ++ f.name = word at takes
    cases takes with
    | load other =>
      exact (scope.of_find? (Globals.record?_eq_some.1 other)).undotted
        (marked '@' (by decide) (withoutLast?_eq_some.2 whole))
    | store other =>
      exact (scope.of_find? (Globals.record?_eq_some.1 other)).undotted
        (marked '!' (by decide) (withoutLast?_eq_some.2 whole))
  obtain ⟨loads, stores⟩ := recordOp_untaken untaken
  have split : splitAtFirst? '.' (name ++ "." ++ f.name) = some (name, f.name) := by
    have chars : (name ++ "." ++ f.name).toList = name.toList ++ '.' :: f.name.toList := by simp
    rw [splitAtFirst?, chars, splitChars?_append plainly.undotted]
    simp
  have operation : recordOp g (name ++ "." ++ f.name) place = .ok (some (.field r f)) := by
    simp only [recordOp, loads, stores, split, known,
      Record.field?_eq_some (plainly.fields r rfl) mem]
  rw [resolve_of_free free (Op.builtin?_eq_none dotted), operation]

end Reader

/-! ## Words that are met -/

theorem Node.mem_within (n : Node) : n ∈ n.within := by cases n <;> simp [within]

/-- The second reading comes to a word where a statement may stand. -/
structure Survey.Meets (s : Survey) (text : Scanned) (t : Token) (r : Reader) : Prop where
  before : ∃ front rest, text.tokens = front ++ t :: rest
    ∧ Reader.run s.globals (.start s) front = .ok r
  phase : r.phase = .statement
  word : t.kind = .word

namespace Program

variable {p : Program} {tables : Tables} {limits : Limits} {text : Scanned}

/-- A word is resolved to a node, which is in the body of a function or in the main code. -/
structure Uses (p : Program) (s : Survey) (t : Token) (r : Reader) (node : Node) : Prop where
  resolved : Reader.resolve s.globals r.supply t.lexeme t.place = .ok node
  read : ∃ f ∈ p.bodies, node ∈ nodesIn f.body

/-- **Every word that is met is resolved**, and what it is resolved to is kept. -/
theorem exists_uses_of_meets (ok : Program.ofTokens limits text = .ok (p, tables)) {survey : Survey}
    (surveyed : Survey.ofTokens limits text = .ok survey) {t : Token} {r : Reader}
    (meets : survey.Meets text t r) : ∃ node, p.Uses survey t r node := by
  obtain ⟨other, last, first, second, finished, rfl, -⟩ := ofTokens_eq_ok ok
  cases surveyed.symm.trans first
  obtain ⟨⟨front, rest, split, before⟩, phase, word⟩ := meets
  have whole := second
  rw [split, Reader.run_append, before] at second
  change Reader.run survey.globals r (t :: rest) = .ok last at second
  rw [Reader.run] at second
  split at second
  case h_2 => cases second
  rename_i next here
  obtain ⟨node, supply, leaf, rfl⟩ :=
    (Reader.step_atom_eq_ok phase ⟨t, fun k kind => by simp [word] at kind⟩).1 here
  cases leaf with
  | word _ resolved =>
    have added : node ∈ (r.after r.supply [node]).nodes :=
      Reader.mem_nodes_add.2 (.inr (List.mem_append_left _ node.mem_within))
    have outside := (Reader.outside_of_readings first whole finished).2
    exact ⟨node, resolved, Reader.exists_body_of_mem_nodes outside (Reader.nodes_run second added)⟩
  | number kind | string kind | cstring kind => simp [word] at kind

/-- The node of a word that means a definition: a call of the function of that name, the value of a
constant, or the address of a memory. -/
inductive Means (p : Program) (name : String) (place : Place) : Meaning → Node → Prop where
  | function {signature : Signature} {f : Func} (known : f ∈ p.functions)
      (call : f.call = ⟨signature.label, name, signature.contract⟩) :
      p.Means name place (.function signature) (.call f.call place)
  | constant {value : Int64} : p.Means name place (.constant value) (.op (.number value) place)
  | memory {label : String} {ty : Ty} :
      p.Means name place (.memory label ty) (.op (.memory label ty) place)

/-- The node of a name in scope that is not the name of a record means what it stands for. -/
theorem means_of_globalNode (ok : Program.ofTokens limits text = .ok (p, tables)) {survey : Survey}
    (surveyed : Survey.ofTokens limits text = .ok survey) {name : String} {place : Place}
    {meaning : Meaning} (found : survey.globals.find? name = some meaning)
    (other : ∀ r, meaning ≠ .record r) {node : Node}
    (named : Reader.globalNode survey.globals name place = .ok node) :
    p.Means name place meaning node := by
  unfold Reader.globalNode at named
  rw [found] at named
  cases meaning with
  | record r => exact absurd rfl (other r)
  | constant value =>
    cases named
    exact .constant
  | memory label ty =>
    cases named
    exact .memory
  | function signature =>
    cases named
    obtain ⟨again, first, -, describes⟩ := readings_of_ofTokens ok
    cases surveyed.symm.trans first
    have recorded := (Survey.ofTokens_sound surveyed).globals.of_find? found
    obtain ⟨h, known, call⟩ := List.mem_map.1 recorded
    obtain ⟨f, read, same⟩ := exists_of_forall₂ describes.flip h known
    have call := same.call.trans call
    exact call ▸ .function read call

/-- **The name of a definition leads to it.** The text of each definition of a program gives a name
and what it stands for. A word of that name, where no pin is in the way, is read as that function,
constant or memory, unless the name is that of a record with `@` or `!` behind it: then the word loads
or stores the record instead. The name of a record and the name of one of its fields, with a dot
between them, are read as that field wherever they stand. -/
theorem definitions_reached (ok : Program.ofTokens limits text = .ok (p, tables)) :
    ∃ survey, Survey.ofTokens limits text = .ok survey
      ∧ (∀ lines ∈ (Survey.start limits).texts text.tokens, ∃ name meaning,
          Gives survey.globals tables lines name meaning
          ∧ survey.globals.find? name = some meaning
          ∧ ((∀ record, meaning ≠ .record record) → ∀ t r, survey.Meets text t r →
              t.lexeme = name → Free r.supply.book.live name →
              ∃ node, p.Uses survey t r node
                ∧ ((∀ op, ¬ survey.globals.Takes name op) → p.Means name t.place meaning node)
                ∧ ∀ op, survey.globals.Takes name op → node = .op op t.place))
      ∧ ∀ name record, survey.globals.record? name = some record → ∀ f ∈ record.layout, ∀ t r,
          survey.Meets text t r → t.lexeme = name ++ "." ++ f.name →
            p.Uses survey t r (.op (.field record f) t.place) := by
  obtain ⟨survey, items, last, surveyed, spelled, elaborates, rfl⟩ := elaborates_of_ofTokens ok
  have scope := Survey.plainly_of_ofTokens surveyed
  have unreserved := Survey.unreserved_run (Survey.ofTokens_eq_ok surveyed).1
  have regions : survey.supply.tables.regions <+: last.tables.regions :=
    elaborates.grows.regions ▸ List.prefix_refl _
  refine ⟨survey, surveyed, fun lines mem => ?_, fun name record known f mem t r meets spelled => ?_⟩
  · obtain ⟨name, meaning, gives, found⟩ := Survey.gives_texts surveyed lines mem
    refine ⟨name, meaning, gives.mono (.refl _) regions, found, ?_⟩
    rintro other t r meets rfl free
    obtain ⟨node, uses⟩ := exists_uses_of_meets ok surveyed meets
    have none : Op.builtin? t.lexeme = none := by
      have reserved := Globals.Each.of_find? (P := fun name _ => isReserved name = false)
        unreserved found
      simp only [isReserved, Bool.or_eq_false_iff, Option.isSome_eq_false_iff,
        Option.isNone_iff_eq_none] at reserved
      exact reserved.1.1
    refine ⟨node, uses, fun untaken => ?_, fun op takes => ?_⟩
    · have resolved := uses.resolved
      rw [Reader.resolve_global free none (scope.of_find? found).undotted untaken] at resolved
      exact means_of_globalNode ok surveyed found other resolved
    · exact Except.ok.inj (uses.resolved.symm.trans (Reader.resolve_takes free none takes))
  · obtain ⟨node, uses⟩ := exists_uses_of_meets ok surveyed meets
    obtain ⟨front, rest, -, before⟩ := meets.before
    have pins := (Reader.named_run pinNames_undotted surveyed before).live
    have resolved : Reader.resolve _ _ _ t.place = _ :=
      Reader.resolve_field scope pins known mem
    rw [← spelled] at resolved
    exact Except.ok.inj (uses.resolved.symm.trans resolved) ▸ uses

end Program

/-- The tokens of `const n 4 ; n str.length`. -/
def constantThenField : Scanned :=
  ⟨[⟨.keyword .constant, "const", ⟨1, 1, "t"⟩⟩, ⟨.word, "n", ⟨1, 7, "t"⟩⟩, ⟨.int 4, "4", ⟨1, 9, "t"⟩⟩,
    ⟨.keyword .semicolon, ";", ⟨1, 11, "t"⟩⟩, ⟨.word, "n", ⟨1, 13, "t"⟩⟩,
    ⟨.word, "str.length", ⟨1, 15, "t"⟩⟩], ⟨1, 25, "t"⟩⟩

/-- What the first reading records of them. -/
def scopeOfConstant : Survey :=
  ⟨⟨⟨"n", .constant 4, ⟨1, 7, "t"⟩⟩ :: Globals.initial.entries⟩, .ofLimits {}, [], .between⟩

/-- The word `n` is read as the number 4, and `str.length` as the first field of a string. -/
theorem definitions_reached_constant :
    let number : Token := ⟨.word, "n", ⟨1, 13, "t"⟩⟩
    let field : Token := ⟨.word, "str.length", ⟨1, 15, "t"⟩⟩
    Scanned.ofText "const n 4 ; n str.length" "t" = .ok constantThenField
      ∧ ∃ p tables, Program.ofTokens {} constantThenField = .ok (p, tables)
        ∧ (∃ r, scopeOfConstant.Meets constantThenField number r
          ∧ p.Uses scopeOfConstant number r (.op (.number 4) number.place))
        ∧ ∃ r, scopeOfConstant.Meets constantThenField field r
          ∧ p.Uses scopeOfConstant field r
            (.op (.field .str ⟨"length", 0, .number⟩) field.place) := by
  intro number field
  refine ⟨by decide +kernel, ?_⟩
  obtain ⟨p, tables, ok⟩ : ∃ p tables, Program.ofTokens {} constantThenField = .ok (p, tables) :=
    ⟨_, _, rfl⟩
  have first : scopeOfConstant.Meets constantThenField number (.start scopeOfConstant) :=
    ⟨⟨constantThenField.tokens.take 4, _, rfl, rfl⟩, rfl, rfl⟩
  have second : scopeOfConstant.Meets constantThenField field
      ((Reader.start scopeOfConstant).add [.op (.number 4) number.place]) :=
    ⟨⟨constantThenField.tokens.take 5, _, rfl, rfl⟩, rfl, rfl⟩
  obtain ⟨survey, again, names, fields⟩ := Program.definitions_reached ok
  have surveyed : Survey.ofTokens {} constantThenField = .ok scopeOfConstant := rfl
  obtain rfl := Except.ok.inj (surveyed.symm.trans again)
  obtain ⟨name, meaning, gives, found, reached⟩ := names (constantThenField.tokens.take 4)
    (List.mem_cons_self ..)
  have named : "n" = name := by
    cases gives with
    | function declares => cases declares.isFunctionText
    | record spells | constant spells | memory spells =>
      obtain ⟨⟨opener, stop, eq, -⟩, -⟩ := spells
      exact congrArg Token.lexeme (List.cons.inj (List.cons.inj eq).2).1
  subst named
  obtain rfl : Meaning.constant 4 = meaning := Option.some.inj found
  refine ⟨p, tables, ok, ⟨_, first, ?_⟩, _, second, ?_⟩
  · obtain ⟨node, uses, means, -⟩ := reached nofun number _ first rfl ⟨rfl, rfl⟩
    have four := means fun op takes => absurd takes.getLast? (by decide)
    cases four
    exact uses
  · exact fields "str" .str rfl _ (List.mem_cons_self ..) field _ second rfl

/-- **A constant that is named like the load of a record cannot be used**: with `str@` for 5, the word
`str@` loads a string. -/
theorem constant_shadowed :
    ∃ scanned survey p tables, Scanned.ofText "const str@ 5 ; str@" "t" = .ok scanned
      ∧ Survey.ofTokens {} scanned = .ok survey
      ∧ survey.globals.find? "str@" = some (.constant 5)
      ∧ Program.ofTokens {} scanned = .ok (p, tables)
      ∧ p.main.body = [.op (.load (.record .str)) ⟨1, 16, "t"⟩] := by
  refine ⟨⟨[⟨.keyword .constant, "const", ⟨1, 1, "t"⟩⟩, ⟨.word, "str@", ⟨1, 7, "t"⟩⟩,
    ⟨.int 5, "5", ⟨1, 12, "t"⟩⟩, ⟨.keyword .semicolon, ";", ⟨1, 14, "t"⟩⟩,
    ⟨.word, "str@", ⟨1, 16, "t"⟩⟩], ⟨1, 20, "t"⟩⟩, _, _, _, by decide +kernel, rfl, rfl, rfl, rfl⟩

end PinnedStack
