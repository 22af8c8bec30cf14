import PinnedStack.Proofs.Text.Reading
import PinnedStack.Proofs.Tree.Linking

/-!
# Names hold no line feeds

* `Token.Spelled`, `Scanned.spelled_of_ofText` — the tokens of a text stand in its file, and its words
  have no blanks.
* `Survey.Kept`, `Survey.ofTokens_kept` — the names of records and memories are unbroken, and every
  memory has its entry in the tables.
* `Head.Unbroken`, `Survey.ofTokens_heads` — so is what a remark shows of a function.
-/

namespace PinnedStack

/-! ## Tokens -/

/-- A token of a file. -/
structure Token.Spelled (file : String) (t : Token) : Prop where
  file : t.place.file = file
  word : t.kind = .word → ∀ c ∈ t.lexeme.toList, isBlank c = false

/-- What is being read belongs to a file, and a word has no blanks so far. -/
def Scanner.Mode.Spelled (file : String) : Scanner.Mode → Prop
  | .gap => True
  | .comment => True
  | .word start chars => start.file = file ∧ ∀ c ∈ chars, isBlank c = false
  | .quoted _ start _ => start.file = file
  | .escape _ start _ _ => start.file = file
  | .closed _ start _ => start.file = file

theorem Token.spelled_ofWord {file : String} {start : Place} {word : List Char} {t : Token}
    (here : start.file = file) (solid : ∀ c ∈ word, isBlank c = false)
    (ok : Token.ofWord start word = .ok t) : t.Spelled file := by
  unfold ofWord at ok
  simp only at ok
  split at ok
  · cases ok
    exact ⟨here, fun _ => by simpa using solid⟩
  · cases ok

theorem Literal.spelled_token {file : String} {form : Literal} {start : Place} {text : List Char}
    {t : Token} (here : start.file = file) (ok : form.token start text = .ok t) :
    t.Spelled file := by
  unfold token at ok
  simp only at ok
  split at ok
  · cases ok
    exact ⟨here, nofun⟩
  · cases ok
    exact ⟨here, nofun⟩
  · split at ok
    · cases ok
      exact ⟨here, nofun⟩
    · cases ok

namespace Scanner

variable {file : String} {s next : Scanner}

/-- What is read so far belongs to a file. -/
structure Spelled (file : String) (s : Scanner) : Prop where
  tokens : ∀ t ∈ s.tokens, t.Spelled file
  mode : s.mode.Spelled file
  place : s.place.file = file

theorem spelled_read (h : s.Spelled file) {c : Char} {tokens : List Token} {mode : Mode}
    (ok : s.read c = .ok (tokens, mode)) :
    (∀ t ∈ tokens, t.Spelled file) ∧ mode.Spelled file := by
  have inside := h.mode
  unfold read at ok
  split at ok
  · split at ok
    · cases ok
      exact ⟨h.tokens, trivial⟩
    · rename_i solid
      split at ok
      · cases ok
        exact ⟨h.tokens, h.place⟩
      · split at ok
        · cases ok
          exact ⟨h.tokens, h.place⟩
        · cases ok
          exact ⟨h.tokens, h.place, by simpa using solid⟩
  · cases ok
    refine ⟨h.tokens, ?_⟩
    split <;> trivial
  · rename_i start chars mode
    rw [mode] at inside
    obtain ⟨here, solid⟩ := inside
    split at ok
    · split at ok
      · rename_i t done
        cases ok
        refine ⟨List.forall_mem_cons.2 ⟨?_, h.tokens⟩, trivial⟩
        exact Token.spelled_ofWord here (fun c mem => solid c (List.mem_reverse.1 mem)) done
      · cases ok
    · rename_i more
      split at ok
      · cases ok
        exact ⟨h.tokens, here⟩
      · split at ok
        · cases ok
          exact ⟨h.tokens, trivial⟩
        · cases ok
          exact ⟨h.tokens, here, List.forall_mem_cons.2 ⟨by simpa using more, solid⟩⟩
  · rename_i form start chars mode
    rw [mode] at inside
    split at ok
    · cases ok
      exact ⟨h.tokens, inside⟩
    · split at ok <;> cases ok <;> exact ⟨h.tokens, inside⟩
  · rename_i form start chars backslash mode
    rw [mode] at inside
    split at ok
    · cases ok
      exact ⟨h.tokens, inside⟩
    · cases ok
  · rename_i form start chars mode
    rw [mode] at inside
    split at ok
    · split at ok
      · rename_i t done
        cases ok
        exact ⟨List.forall_mem_cons.2 ⟨Literal.spelled_token inside done, h.tokens⟩, trivial⟩
      · cases ok
    · cases ok

theorem spelled_step (h : s.Spelled file) {c : Char} (ok : s.step c = .ok next) :
    next.Spelled file := by
  unfold step at ok
  split at ok
  · rename_i tokens mode here
    cases ok
    obtain ⟨tokens, mode⟩ := spelled_read h here
    exact ⟨tokens, mode, (Place.after_file _ _).trans h.place⟩
  · cases ok

theorem spelled_run (h : s.Spelled file) {cs : List Char} (ok : s.run cs = .ok next) :
    next.Spelled file := by
  induction cs generalizing s with
  | nil =>
    cases ok
    exact h
  | cons c cs ih =>
    simp only [run] at ok
    split at ok
    · rename_i one here
      exact ih (spelled_step h here) ok
    · cases ok

theorem spelled_finish (h : s.Spelled file) {text : Scanned} (ok : s.finish = .ok text) :
    ∀ t ∈ text.tokens, t.Spelled file := by
  have inside := h.mode
  unfold finish at ok
  split at ok
  · cases ok
    simpa using h.tokens
  · cases ok
    simpa using h.tokens
  · rename_i start chars mode
    rw [mode] at inside
    split at ok
    · rename_i t done
      cases ok
      have last : t.Spelled file :=
        Token.spelled_ofWord inside.1 (fun c mem => inside.2 c (List.mem_reverse.1 mem)) done
      exact fun t mem => List.forall_mem_cons.2 ⟨last, h.tokens⟩ t (List.mem_reverse.1 mem)
    · cases ok
  · cases ok
  · cases ok
  · rename_i form start chars mode
    rw [mode] at inside
    split at ok
    · rename_i t done
      cases ok
      have last : t.Spelled file := Literal.spelled_token inside done
      exact fun t mem => List.forall_mem_cons.2 ⟨last, h.tokens⟩ t (List.mem_reverse.1 mem)
    · cases ok

end Scanner

/-- **The tokens of a text stand in its file, and its words have no blanks.** -/
theorem Scanned.spelled_of_ofText {source file : String} {text : Scanned}
    (ok : Scanned.ofText source file = .ok text) : ∀ t ∈ text.tokens, t.Spelled file := by
  unfold ofText at ok
  split at ok
  · rename_i s here
    have start : (Scanner.start file).Spelled file := ⟨by simp [Scanner.start], trivial, rfl⟩
    exact Scanner.spelled_finish (Scanner.spelled_run start here) ok
  · cases ok

/-! ## Text without line feeds -/

theorem unbroken_repr (n : Nat) : Unbroken n.repr := Asm.not_mem_repr rfl n

theorem Token.Spelled.unbroken {file : String} {t : Token} (h : t.Spelled file)
    (word : t.kind = .word) : Unbroken t.lexeme :=
  fun mem => Bool.noConfusion (isBlank_newline.symm.trans (h.word word _ mem))

theorem Unbroken.of_split {mark : Char} {word before after : String} (h : Unbroken word)
    (split : splitAtFirst? mark word = some (before, after)) : Unbroken before := by
  obtain ⟨⟨front, back⟩, here, eq⟩ := Option.map_eq_some_iff.1 split
  cases eq
  have whole := (splitChars?_eq_some here).1
  intro mem
  exact h (whole ▸ List.mem_append_left _ (by simpa using mem))

theorem Place.unbroken_text {p : Place} (file : Unbroken p.file) : Unbroken p.text :=
  ((((file.append (b := ":") (by decide)).append (unbroken_repr p.line)).append (b := ":")
    (by decide)).append (unbroken_repr p.column))

/-! ## Types -/

/-- The names of records are unbroken. -/
def Globals.Unbroken (g : Globals) : Prop :=
  ∀ e ∈ g.entries, ∀ r, e.meaning = .record r → PinnedStack.Unbroken r.name

namespace Globals

variable {g : Globals}

theorem Unbroken.of_record? (h : g.Unbroken) {name : String} {r : Record}
    (found : g.record? name = some r) : PinnedStack.Unbroken r.name := by
  obtain ⟨entry, held, eq⟩ := Option.map_eq_some_iff.1 (record?_eq_some.1 found)
  exact h entry (List.mem_of_find?_eq_some held) _ eq

theorem unbroken_tyNamed (h : g.Unbroken) {name : String} {place : Place} {ty : Ty}
    (ok : g.tyNamed name place = .ok ty) : PinnedStack.Unbroken ty.text := by
  obtain ⟨-, rfl⟩ | ⟨-, rfl⟩ | ⟨-, -, -, r, known, rfl⟩ := tyNamed_eq_ok.1 ok
  · decide
  · decide
  · unfold Ty.ofRecord
    split
    · rename_i only _
      cases only.kind <;> decide
    · exact h.of_record? known

/-- The types that source text denotes are written without line feeds. -/
theorem unbroken_tyOf (h : g.Unbroken) {text : String} {place : Place} {ty : Ty}
    (ok : g.tyOf text place = .ok ty) : PinnedStack.Unbroken ty.text := by
  rw [tyOf_eq_ok] at ok
  generalize text.toList = chars at ok
  induction ok with
  | named _ named => exact unbroken_tyNamed h named
  | pointer _ inner => exact .append (a := "*") (by decide) inner

end Globals

/-! ## The first reading -/

/-- Every memory has its entry in the tables. -/
def Globals.Stored (g : Globals) (t : Tables) : Prop :=
  ∀ e ∈ g.entries, ∀ label ty, e.meaning = .memory label ty → label ∈ t.labels

/-- The name of a plain definition in hand is unbroken. -/
def Survey.Phase.Named : Survey.Phase → Prop
  | .collecting _ about _ => Unbroken about.name.lexeme
  | _ => True

/-- What holds of the first reading at every token. -/
structure Survey.Kept (s : Survey) : Prop where
  records : s.globals.Unbroken
  memories : s.globals.Stored s.supply.tables
  regions : ∀ r ∈ s.supply.tables.regions, Unbroken r.name
  phase : s.phase.Named

namespace Survey

variable {s next : Survey}

theorem Kept.define (h : s.Kept) {globals : Globals} {supply : Supply} {name : String}
    {meaning : Meaning} {place : Place}
    (defined : s.globals.define name meaning place = .ok globals)
    (record : ∀ r, meaning = .record r → Unbroken r.name)
    (memory : ∀ label ty, meaning = .memory label ty → label ∈ supply.tables.labels)
    (more : s.supply.tables.labels ⊆ supply.tables.labels)
    (regions : ∀ r ∈ supply.tables.regions, Unbroken r.name) {heads : List Head} :
    Kept ⟨globals, supply, heads, .between⟩ := by
  obtain ⟨-, -, -, rfl⟩ := Globals.define_eq_ok.1 defined
  refine ⟨?_, ?_, regions, trivial⟩
  · exact List.forall_mem_cons.2 ⟨record, h.records⟩
  · exact List.forall_mem_cons.2
      ⟨memory, fun e mem label ty stored => more (h.memories e mem label ty stored)⟩

theorem kept_definePlain (h : s.Kept) {plain : Plain} {name : Token} {ts : List Token}
    (unbroken : Unbroken name.lexeme) (ok : s.definePlain plain name ts = .ok next) :
    next.Kept := by
  obtain ⟨supply, meaning, globals, yields, defined, rfl⟩ := definePlain_eq_ok.1 ok
  cases yields with
  | @record r spelled =>
    obtain ⟨fields, -, -, rfl⟩ := recordOf_eq_ok.1 spelled
    exact h.define defined (fun r eq => by cases eq; exact unbroken) nofun (List.Subset.refl _)
      h.regions
  | constant => exact h.define defined nofun nofun (List.Subset.refl _) h.regions
  | memory =>
    refine h.define defined nofun ?_ ?_ ?_
    · rintro label ty eq
      cases eq
      exact List.mem_append_right _
        (List.mem_map_of_mem (by simp [Supply.region, Tables.addRegion]))
    · intro label mem
      simp only [Supply.region, Tables.addRegion, Tables.labels, List.mem_append] at mem ⊢
      simp only [List.length_append, List.length_singleton, List.range_succ, List.map_append,
        List.mem_append]
      exact mem.imp_right .inl
    · intro r mem
      rcases List.mem_append.1 mem with mem | mem
      · exact h.regions r mem
      · exact List.mem_singleton.1 mem ▸ unbroken

theorem named_advance {g : Globals} {t : Token} {phase after : Survey.Phase} (h : phase.Named)
    (word : t.kind = .word → Unbroken t.lexeme) (ok : advance g t phase = .ok after) :
    after.Named := by
  cases advance_eq_ok.1 ok with
  | plainName kind => exact word kind
  | collected => exact h
  | _ => trivial

theorem kept_step (h : s.Kept) {t : Token} (word : t.kind = .word → Unbroken t.lexeme)
    (ok : s.step t = .ok next) : next.Kept := by
  cases step_moves ok with
  | plain phase _ defined =>
    have named := h.phase
    rw [phase] at named
    exact kept_definePlain h named defined
  | function _ _ ends =>
    obtain ⟨globals, defined, rfl⟩ := defineFunction_eq_ok.1 ends
    exact h.define defined nofun nofun (List.Subset.refl _) h.regions
  | onward advanced =>
    exact ⟨h.records, h.memories, h.regions, named_advance h.phase word advanced⟩

theorem kept_run (h : s.Kept) {ts : List Token}
    (words : ∀ t ∈ ts, t.kind = .word → Unbroken t.lexeme) (ok : s.run ts = .ok next) :
    next.Kept := by
  induction ts generalizing s with
  | nil =>
    cases ok
    exact h
  | cons t ts ih =>
    obtain ⟨first, others⟩ := List.forall_mem_cons.1 words
    simp only [run] at ok
    split at ok
    · rename_i one here
      exact ih (kept_step h first here) others ok
    · cases ok

/-- **The names that the first reading records are unbroken, and memories have their entries.** -/
theorem ofTokens_kept {limits : Limits} {text : Scanned} (ok : ofTokens limits text = .ok s)
    (words : ∀ t ∈ text.tokens, t.kind = .word → Unbroken t.lexeme) : s.Kept := by
  have begun : (start limits).phase.Named := trivial
  refine kept_run ⟨?_, ?_, by simp [start, Supply.ofLimits, Tables.empty], begun⟩ words
    (ofTokens_eq_ok ok).1
  · intro e mem r eq
    simp only [start, Globals.initial, List.mem_cons, List.not_mem_nil, or_false] at mem
    rcases mem with rfl | rfl <;> cases eq <;> decide
  · intro e mem label ty eq
    simp only [start, Globals.initial, List.mem_cons, List.not_mem_nil, or_false] at mem
    rcases mem with rfl | rfl <;> cases eq

/-! ## Functions -/

theorem mem_of_mem_textsOf {opened : List Token} {trace : List (Token × Stage)} {text : List Token}
    (mem : text ∈ textsOf opened trace) : ∀ t ∈ text, t ∈ opened ∨ t ∈ trace.map Prod.fst := by
  induction trace generalizing opened with
  | nil => simp [textsOf] at mem
  | cons e trace ih =>
    obtain ⟨t, stage⟩ := e
    have more : ∀ {opened'}, (∀ u ∈ opened', u ∈ opened ∨ u = t) → text ∈ textsOf opened' trace →
        ∀ u ∈ text, u ∈ opened ∨ u ∈ ((t, stage) :: trace).map Prod.fst := by
      intro opened' inside mem u held
      rcases ih mem u held with here | here
      · exact (inside u here).imp_right fun (eq : u = t) => eq ▸ List.mem_cons_self ..
      · exact .inr (List.mem_cons_of_mem _ here)
    simp only [textsOf] at mem
    split at mem
    · split at mem
      · exact more (by simp) mem
      · rcases List.mem_cons.1 mem with rfl | mem
        · intro u held
          rcases List.mem_append.1 held with held | held
          · exact .inl held
          · exact .inr (List.mem_singleton.1 held ▸ List.mem_cons_self ..)
        · exact more (by simp) mem
    · refine more (fun u held => ?_) mem
      simpa using held

theorem mem_of_mem_trace {ts : List Token} : ∀ t ∈ (s.trace ts).map Prod.fst, t ∈ ts := by
  induction ts generalizing s with
  | nil => simp [trace]
  | cons t ts ih =>
    simp only [trace]
    split
    · rename_i one _
      exact List.forall_mem_cons.2
        ⟨List.mem_cons_self .., fun u mem => List.mem_cons_of_mem _ (ih u mem)⟩
    · simp

end Survey

/-- What a remark shows of a function is unbroken. -/
structure Head.Unbroken (file : String) (h : Head) : Prop where
  name : PinnedStack.Unbroken h.name
  place : h.place.file = file
  contract : PinnedStack.Unbroken h.signature.contract.text

/-- A contract is written without line feeds if its types are. -/
theorem Contract.unbroken_text {c : Contract} (inputs : ∀ ty ∈ c.inputs, Unbroken ty.text)
    (outputs : ∀ ty ∈ c.outputs, Unbroken ty.text) : Unbroken c.text := by
  have spelled : ∀ {tys : List Ty}, (∀ ty ∈ tys, Unbroken ty.text) →
      Unbroken (String.join (tys.map fun ty => " " ++ ty.text)) := by
    intro tys each mem
    rw [String.toList_join, List.mem_flatMap] at mem
    obtain ⟨part, here, mem⟩ := mem
    obtain ⟨ty, held, rfl⟩ := List.mem_map.1 here
    exact Unbroken.append (a := " ") (by decide) (each ty held) mem
  exact ((((Unbroken.append (a := "(") (by decide) (spelled inputs)).append (b := " --")
    (by decide)).append (spelled outputs)).append (b := " )") (by decide))

/-- What a list gives element by element comes from one of its elements. -/
theorem exists_of_forall₂ {α β : Type} {R : α → β → Prop} {as : List α} {bs : List β}
    (all : List.Forall₂ R as bs) : ∀ b ∈ bs, ∃ a ∈ as, R a b := by
  induction all with
  | nil => simp
  | cons first _ ih =>
    refine List.forall_mem_cons.2 ⟨⟨_, List.mem_cons_self .., first⟩, fun b mem => ?_⟩
    obtain ⟨a, held, rel⟩ := ih b mem
    exact ⟨a, List.mem_cons_of_mem _ held, rel⟩

theorem Signs.unbroken {g : Globals} (records : g.Unbroken) {ts : List Token} {contract : Contract}
    {params : Option (List (String × Ty))} (signs : Signs g ts contract params) :
    Unbroken contract.text := by
  have given : ∀ {ts : List Token} {tys : List Ty}, List.Forall₂ g.GivesType ts tys →
      ∀ ty ∈ tys, Unbroken ty.text := by
    intro ts tys gives ty mem
    obtain ⟨t, -, word, type⟩ := exists_of_forall₂ gives ty mem
    exact Globals.unbroken_tyOf records type
  cases signs with
  | anonymous _ left right =>
    exact Contract.unbroken_text (given (left.imp fun _ _ gives => gives.2)) (given right)
  | named _ _ left right =>
    refine Contract.unbroken_text (fun ty mem => ?_) (given right)
    obtain ⟨param, held, rfl⟩ := List.mem_map.1 mem
    obtain ⟨t, -, -, _, -, -, type⟩ := exists_of_forall₂ left param held
    exact Globals.unbroken_tyOf records type

/-- **What a remark shows of a function is unbroken.** -/
theorem Survey.ofTokens_heads {limits : Limits} {text : Scanned} {file : String} {s : Survey}
    (ok : ofTokens limits text = .ok s) (spelled : ∀ t ∈ text.tokens, t.Spelled file) :
    ∀ h ∈ s.heads, h.Unbroken file := by
  intro h mem
  have kept := ofTokens_kept ok fun t held word => (spelled t held).unbroken word
  obtain ⟨tokens, listed, declared⟩ := exists_of_forall₂ (declares_texts ok) h mem
  obtain ⟨name, front, signature, paren, body, rfl, heads, -, called, place, signs⟩ := declared
  have held : name ∈ text.tokens := by
    refine (mem_of_mem_textsOf (List.mem_of_mem_filter listed) name ?_).elim nofun
      (mem_of_mem_trace name)
    obtain ⟨opener, opening, rfl, -, -⟩ := heads.text
    simp
  exact ⟨called ▸ (spelled name held).unbroken heads.word, place ▸ (spelled name held).file,
    signs.unbroken kept.records⟩

end PinnedStack
