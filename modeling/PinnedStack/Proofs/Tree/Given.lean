import PinnedStack.Proofs.Tree.Definitions

/-!
# What the text of a definition defines

* `Globals.Within.eval`, `Globals.Within.recordOf`, `Globals.Within.regionOf` — what plain definitions
  give stays the same when more is defined.
* `Plain.Spells` — the tokens of a plain definition. `Gives` — the tokens of a definition give a name
  and what it stands for.
* `Survey.Phase.Collects` — the tokens in hand of a plain definition are those of its text.
* `Survey.gives_texts` — every text of a definition gives a name, which is found with what it gives.
-/

namespace PinnedStack

/-! ## More definitions change no value -/

namespace Globals.Within

variable {g more : Globals} {name : Token} {tokens : List Token}

theorem valueOf (h : g.Within more) {name : String} {place : Place} {value : Int64}
    (ok : Constant.valueOf g name place = .ok value) :
    Constant.valueOf more name place = .ok value := by
  obtain found | ⟨r, found, eq⟩ := Constant.valueOf_eq_ok.1 ok
  · exact Constant.valueOf_eq_ok.2 (.inl (h _ _ found))
  · exact Constant.valueOf_eq_ok.2 (.inr ⟨r, h _ _ found, eq⟩)

theorem constantStep (h : g.Within more) {stack next : List Int64} {t : Token}
    (ok : Constant.step g stack t = .ok next) : Constant.step more stack t = .ok next := by
  obtain int | operator | ⟨word, other, v, valued, eq⟩ := Constant.step_eq_ok.1 ok
  · exact Constant.step_eq_ok.2 (.inl int)
  · exact Constant.step_eq_ok.2 (.inr (.inl operator))
  · exact Constant.step_eq_ok.2 (.inr (.inr ⟨word, other, v, h.valueOf valued, eq⟩))

theorem constantRun (h : g.Within more) {stack out : List Int64}
    (ok : Constant.run g stack tokens = .ok out) : Constant.run more stack tokens = .ok out := by
  induction tokens generalizing stack with
  | nil => exact ok
  | cons t tokens ih =>
    rw [Constant.run] at ok ⊢
    split at ok
    case h_2 => cases ok
    rename_i next here
    rw [h.constantStep here]
    exact ih ok

/-- A constant expression keeps its value when more is defined. -/
theorem eval (h : g.Within more) {value : Int64} (ok : Constant.eval g name tokens = .ok value) :
    Constant.eval more name tokens = .ok value :=
  Constant.eval_eq_ok.2 (h.constantRun (Constant.eval_eq_ok.1 ok))

theorem fieldsOf (h : g.Within more) {record : String} {fields out : List Field}
    (ok : Survey.fieldsOf g record fields tokens = .ok out) :
    Survey.fieldsOf more record fields tokens = .ok out := by
  induction tokens generalizing fields with
  | nil => exact ok
  | cons t tokens ih =>
    rw [Survey.fieldsOf] at ok ⊢
    split at ok
    case h_2 => cases ok
    rename_i next here
    obtain ⟨field, tyText, ty, kind, word, split, any, typed, rest⟩ := Survey.addField_eq_ok.1 here
    rw [Survey.addField_eq_ok.2 ⟨field, tyText, ty, kind, word, split, any, h.tyOf typed, rest⟩]
    exact ih ok

theorem recordOf (h : g.Within more) {r : Record} (ok : Survey.recordOf g name tokens = .ok r) :
    Survey.recordOf more name tokens = .ok r := by
  obtain ⟨fields, spelled, any, rfl⟩ := Survey.recordOf_eq_ok.1 ok
  exact Survey.recordOf_eq_ok.2 ⟨fields, h.fieldsOf spelled, any, rfl⟩

theorem bareRegion (h : g.Within more) {region : Ty × Nat}
    (ok : Survey.bareRegion g name tokens = .ok region) :
    Survey.bareRegion more name tokens = .ok region := by
  obtain ⟨size, valued, sized⟩ := Survey.bareRegion_eq_ok.1 ok
  exact Survey.bareRegion_eq_ok.2 ⟨size, h.eval valued, sized⟩

/-- A word that has a value and names no record names none when more is defined. -/
theorem record?_eq_none (h : g.Within more) {t : Token} (kind : t.kind = .word)
    (unnamed : g.record? t.lexeme = none) {value : Int64}
    (ok : Constant.eval g name [t] = .ok value) : more.record? t.lexeme = none := by
  have ran := Constant.eval_eq_ok.1 ok
  rw [Constant.run] at ran
  split at ran
  case h_2 => cases ran
  rename_i next here
  obtain ⟨v, int, -⟩ | ⟨-, op, -, applied⟩ | ⟨-, -, v, valued, -⟩ := Constant.step_eq_ok.1 here
  · cases kind.symm.trans int
  · obtain ⟨_, _, _, _, none, -⟩ := Constant.apply_eq_ok.1 applied
    cases none
  · obtain found | ⟨r, found, -⟩ := Constant.valueOf_eq_ok.1 valued
    · simp [Globals.record?, h _ _ found]
    · simp [Globals.record?, found] at unnamed

/-- A region keeps its type and its size when more is defined. -/
theorem regionOf (h : g.Within more) {region : Ty × Nat}
    (ok : Survey.regionOf g name tokens = .ok region) :
    Survey.regionOf more name tokens = .ok region := by
  obtain ⟨t, r, one, word, known, eq⟩ | ⟨other, bare⟩ := Survey.regionOf_eq_ok.1 ok
  · exact Survey.regionOf_eq_ok.2 (.inl ⟨t, r, one, word, h.record? known, eq⟩)
  · refine Survey.regionOf_eq_ok.2 (.inr ⟨fun t one word => ?_, h.bareRegion bare⟩)
    obtain ⟨size, valued, -⟩ := Survey.bareRegion_eq_ok.1 bare
    exact h.record?_eq_none word (other t one word) (one ▸ valued)

end Globals.Within

/-! ## The tokens of a definition -/

/-- The tokens of a plain definition: its keyword, its name, what stands inside, and `;`. -/
structure Plain.Spells (form : Plain) (text : List Token) (name : Token) (inside : List Token) :
    Prop where
  text : ∃ opener stop, text = opener :: name :: (inside ++ [stop])
    ∧ opener.kind = .keyword form.keyword ∧ stop.kind = .keyword .semicolon
  word : name.kind = .word

/-- The tokens of a definition give a name and what it stands for. A memory has its entry among the
regions. -/
inductive Gives (g : Globals) (tables : Tables) (text : List Token) : String → Meaning → Prop where
  | function {h : Head} (declares : Declares g text h) :
      Gives g tables text h.name (.function h.signature)
  | record {name : Token} {inside : List Token} {r : Record}
      (spells : Plain.record.Spells text name inside)
      (fields : Survey.recordOf g name inside = .ok r) :
      Gives g tables text name.lexeme (.record r)
  | constant {name : Token} {inside : List Token} {value : Int64}
      (spells : Plain.constant.Spells text name inside)
      (value_eq : Constant.eval g name inside = .ok value) :
      Gives g tables text name.lexeme (.constant value)
  | memory {name : Token} {inside : List Token} {label : String} {ty : Ty} {size : Nat}
      (spells : Plain.memory.Spells text name inside)
      (region : Survey.regionOf g name inside = .ok (ty, size))
      (stored : (label, ⟨name.lexeme, size⟩) ∈ tables.labelledRegions) :
      Gives g tables text name.lexeme (.memory label ty)

theorem Plain.Spells.unique {form other : Plain} {text : List Token} {name again : Token}
    {inside within : List Token} (h : form.Spells text name inside)
    (h' : other.Spells text again within) : form = other ∧ name = again ∧ inside = within := by
  obtain ⟨⟨opener, stop, eq, kind, -⟩, -⟩ := h
  obtain ⟨⟨opener', stop', rfl, kind', -⟩, -⟩ := h'
  obtain ⟨rfl, rest⟩ := List.cons.inj eq
  obtain ⟨rfl, inner⟩ := List.cons.inj rest
  refine ⟨?_, rfl, (List.append_inj' inner rfl).1.symm⟩
  have same := kind.symm.trans kind'
  cases form <;> cases other <;> first | rfl | cases same

/-- The tokens of a memory give that memory and nothing else. -/
theorem Gives.memory_of_spells {g : Globals} {tables : Tables} {text inside : List Token} {name : Token}
    {found : String} {meaning : Meaning} (spells : Plain.memory.Spells text name inside)
    (gives : Gives g tables text found meaning) : found = name.lexeme ∧ ∃ label ty size,
      meaning = .memory label ty ∧ Survey.regionOf g name inside = .ok (ty, size)
      ∧ (label, ⟨name.lexeme, size⟩) ∈ tables.labelledRegions := by
  cases gives with
  | function declares =>
    obtain ⟨⟨opener, stop, rfl, kind, -⟩, -⟩ := spells
    have function := declares.isFunctionText
    simp [isFunctionText, kind, Plain.keyword] at function
  | record other => cases (spells.unique other).1
  | constant other => cases (spells.unique other).1
  | memory other region stored =>
    obtain ⟨-, rfl, rfl⟩ := spells.unique other
    exact ⟨rfl, _, _, _, rfl, region, stored⟩

/-- A region that is added has the label that is handed out for it. -/
theorem Tables.mem_labelledRegions_addRegion (t : Tables) (name : String) (size : Nat) :
    ((t.addRegion name size).1, ⟨name, size⟩) ∈ (t.addRegion name size).2.labelledRegions := by
  simp [addRegion, labelledRegions, List.zipIdx_append]

/-- Regions that are added behind others leave the labels of those alone. -/
theorem Tables.labelledRegions_subset {t more : Tables} (h : t.regions <+: more.regions) :
    t.labelledRegions ⊆ more.labelledRegions :=
  (labelled_mono h).subset

theorem Gives.mono {g more : Globals} {tables last : Tables} {text : List Token} {name : String}
    {meaning : Meaning} (h : g.Within more) (regions : tables.regions <+: last.regions)
    (gives : Gives g tables text name meaning) : Gives more last text name meaning := by
  cases gives with
  | function declares => exact .function (declares.mono h)
  | record spells fields => exact .record spells (h.recordOf fields)
  | constant spells value => exact .constant spells (h.eval value)
  | memory spells region stored =>
    exact .memory spells (h.regionOf region) (Tables.labelledRegions_subset regions stored)

namespace Survey

variable {s next last : Survey} {t : Token} {ts opened : List Token}

/-- What is in hand of a plain definition is its text but for the `;`. -/
def Phase.Collects (opened : List Token) : Survey.Phase → Prop
  | .collecting plain about tokens =>
      ∃ opener, opened = opener :: about.name :: tokens.reverse
        ∧ opener.kind = .keyword plain.keyword ∧ about.name.kind = .word
  | _ => True

theorem advance_collects {g : Globals} {phase after : Survey.Phase} (reads : phase.Reads g opened)
    (h : phase.Collects opened) (ok : advance g t phase = .ok after) :
    after.Collects (opened ++ [t]) := by
  cases advance_eq_ok.1 ok with
  | plainName word =>
    obtain ⟨first, rfl, start⟩ := reads
    exact ⟨first, rfl, start, word⟩
  | collected =>
    obtain ⟨first, rfl, start, word⟩ := h
    exact ⟨first, by simp, start, word⟩
  | _ => trivial

/-- The `;` of a plain definition records what its tokens give. -/
theorem definePlain_gives {plain : Plain} {name : Token} {tokens text : List Token}
    (spells : plain.Spells text name tokens) (ok : s.definePlain plain name tokens = .ok next) :
    next.phase = .between ∧ s.supply.tables.regions <+: next.supply.tables.regions
      ∧ ∃ meaning, Gives next.globals next.supply.tables text name.lexeme meaning
        ∧ next.globals.find? name.lexeme = some meaning := by
  obtain ⟨supply, meaning, globals, yields, defined, rfl⟩ := definePlain_eq_ok.1 ok
  have within := Globals.within_of_define defined
  have found : globals.find? name.lexeme = some meaning := by simp [Globals.find?_define defined]
  cases yields with
  | record spelled =>
    exact ⟨rfl, List.prefix_refl _, _, .record spells (within.recordOf spelled), found⟩
  | constant valued =>
    exact ⟨rfl, List.prefix_refl _, _, .constant spells (within.eval valued), found⟩
  | @memory ty size sized =>
    refine ⟨rfl, ⟨_, rfl⟩, _, .memory spells (within.regionOf sized) ?_, found⟩
    exact s.supply.tables.mem_labelledRegions_addRegion name.lexeme size

/-- What a token leaves behind: it adds regions only, and the text of a definition that it ends gives
the name that it is found under. -/
structure Ended (opened : List Token) (s : Survey) (t : Token) (next : Survey) : Prop where
  regions : s.supply.tables.regions <+: next.supply.tables.regions
  collects : next.phase.Collects (opened ++ [t])
  gives : next.phase = .between → opened ≠ [] →
    ∃ name meaning, Gives next.globals next.supply.tables (opened ++ [t]) name meaning
      ∧ next.globals.find? name = some meaning

theorem step_ended (reads : s.phase.Reads s.globals opened) (h : s.phase.Collects opened)
    (ok : s.step t = .ok next) : Ended opened s t next := by
  obtain ⟨turns, -⟩ := step_turns reads ok
  obtain ⟨plain, about, tokens, phase, kind, defined, -⟩
    | ⟨about, contract, params, phase, -, defined, -⟩ | ⟨after, here, rfl, -⟩ := step_cases ok
  · rw [phase] at h
    obtain ⟨opener, rfl, start, word⟩ := h
    have spells : plain.Spells (opener :: about.name :: tokens.reverse ++ [t]) about.name
        tokens.reverse := ⟨⟨opener, t, rfl, start, kind⟩, word⟩
    obtain ⟨between, regions, meaning, gives, found⟩ := definePlain_gives spells defined
    exact ⟨regions, by rw [between]; trivial, fun _ _ => ⟨_, meaning, gives, found⟩⟩
  · obtain ⟨globals, -, rfl⟩ := defineFunction_eq_ok.1 defined
    refine ⟨List.prefix_refl _, trivial, fun _ any => ?_⟩
    cases turns with
    | outside empty => exact absurd empty any
    | inside other => exact absurd rfl other
    | plain _ _ _ heads => simp at heads
    | function _ _ head declares _ _ found => exact ⟨_, _, .function declares, found⟩
  · refine ⟨List.prefix_refl _, advance_collects reads h here, fun between any => ?_⟩
    rcases advance_reads reads here with ⟨-, empty⟩ | ⟨other, -⟩
    · exact absurd empty any
    · exact absurd between other

/-- **Every definition that is read gives a name**, which is found with what it gives. -/
theorem run_gives (reads : s.phase.Reads s.globals opened) (h : s.phase.Collects opened)
    (ok : s.run ts = .ok last) :
    s.globals.Within last.globals ∧ s.supply.tables.regions <+: last.supply.tables.regions
      ∧ ∀ text ∈ textsOf opened (s.trace ts),
        ∃ name meaning, Gives last.globals last.supply.tables text name meaning
          ∧ last.globals.find? name = some meaning := by
  induction ts generalizing s opened with
  | nil =>
    cases ok
    exact ⟨.refl _, List.prefix_refl _, nofun⟩
  | cons t ts ih =>
    simp only [run] at ok
    split at ok
    case h_2 => cases ok
    rename_i one here
    obtain ⟨turns, within⟩ := step_turns reads here
    obtain ⟨regions, collects, gives⟩ := step_ended reads h here
    simp only [trace, here, textsOf]
    by_cases between : one.phase = .between
    · have none : one.phase.Reads one.globals [] := by rw [between]; exact rfl
      have fresh : one.phase.Collects [] := by rw [between]; trivial
      obtain ⟨onward, more, all⟩ := ih none fresh ok
      refine ⟨within.trans onward, regions.trans more, ?_⟩
      rw [if_pos (Phase.stage_eq_between.2 between)]
      split
      · exact all
      · rename_i any
        refine List.forall_mem_cons.2 ⟨?_, all⟩
        obtain ⟨name, meaning, gives, found⟩ := gives between any
        exact ⟨name, meaning, gives.mono onward more, onward _ _ found⟩
    · rw [if_neg (mt Phase.stage_eq_between.1 between)]
      have inside : one.phase.Reads one.globals (opened ++ [t]) := by
        cases turns with
        | inside _ reads => exact reads
        | outside _ phase | plain _ phase | function _ phase => exact absurd phase between
      obtain ⟨onward, more, all⟩ := ih inside collects ok
      exact ⟨within.trans onward, regions.trans more, all⟩

/-- **The text of each definition gives a name**, and the first reading records it with what the text
gives. -/
theorem gives_texts {limits : Limits} {text : Scanned} (ok : ofTokens limits text = .ok s) :
    ∀ lines ∈ (start limits).texts text.tokens,
      ∃ name meaning, Gives s.globals s.supply.tables lines name meaning
        ∧ s.globals.find? name = some meaning := by
  have none : (start limits).phase.Reads (start limits).globals [] := rfl
  have fresh : (start limits).phase.Collects [] := trivial
  exact (run_gives none fresh (ofTokens_eq_ok ok).1).2.2

end Survey

end PinnedStack
