import PinnedStack.Proofs.Tree.Scoped

/-!
# What the first reading records

* `Survey.Yields` — what the tokens of a plain definition give to its name.
* `Survey.Moves` — every change that a token can make; `Survey.step_moves` — a step that is not
  refused is one of them.
* `Meaning.Sound`, `Globals.Sound` — every global name stands for something sound, and a function
  is one of the given callees.
* `Globals.tyOf_sound` — the types that source text denotes are sound.
* `Survey.Sound` — the invariant of the first reading; `Survey.step_sound` keeps it, and
  `Survey.ofTokens_sound` is what holds at the end.
-/

namespace PinnedStack

/-- The label of the function with the given index. -/
def functionLabel (id : Nat) : String := s!"fn_{id}"

namespace Survey

variable {s next : Survey} {t : Token}

/-! ## Plain definitions -/

section Plain

variable {g : Globals} {name : Token} {tokens : List Token}

theorem addField_eq_ok {record : String} {fields more : List PinnedStack.Field} :
    addField g record fields t = .ok more ↔ ∃ field tyText ty kind, t.kind = .word
      ∧ splitAtFirst? ':' t.lexeme = some (field, tyText) ∧ field ≠ ""
      ∧ g.tyOf tyText t.place = .ok ty ∧ ty.kind? = some kind
      ∧ fields.any (·.name == field) = false ∧ more = fields ++ [⟨field, kind⟩] := by
  unfold addField
  constructor
  · intro ok
    simp only at ok
    split at ok
    · rename_i field tyText word split
      split at ok
      · cases ok
      · rename_i any
        split at ok
        · cases ok
        · rename_i ty typed
          split at ok
          · cases ok
          · rename_i kind single
            split at ok
            · cases ok
            · rename_i fresh
              cases ok
              exact ⟨field, tyText, ty, kind, word, split, any, typed, single,
                Bool.eq_false_iff.2 fresh, rfl⟩
    · cases ok
  · rintro ⟨field, tyText, ty, kind, word, split, any, typed, single, fresh, rfl⟩
    simp only [word, split, any, typed, single, fresh, if_false, Bool.false_eq_true]

theorem recordOf_eq_ok {r : Record} : recordOf g name tokens = .ok r ↔
    ∃ fields, fieldsOf g name.lexeme [] tokens = .ok fields ∧ fields ≠ []
      ∧ r = ⟨name.lexeme, fields⟩ := by
  unfold recordOf
  constructor
  · intro ok
    split at ok
    · cases ok
    · cases ok
    · rename_i fields any spelled
      cases ok
      exact ⟨fields, spelled, any, rfl⟩
  · rintro ⟨fields, spelled, any, rfl⟩
    rw [spelled]
    cases fields with
    | nil => exact absurd rfl any
    | cons => rfl

theorem bareRegion_eq_ok {region : Ty × Nat} : bareRegion g name tokens = .ok region ↔
    ∃ size, Constant.eval g name tokens = .ok size ∧ ¬ size < 0
      ∧ region = (.pointer, size.toInt.toNat) := by
  unfold bareRegion
  constructor
  · intro ok
    split at ok
    · cases ok
    · rename_i size valued
      split at ok
      · cases ok
      · rename_i positive
        cases ok
        exact ⟨size, valued, positive, rfl⟩
  · rintro ⟨size, valued, positive, rfl⟩
    simp only [valued, positive, if_false]

/-- A lone record's name is a region for it, and anything else is a size. -/
theorem regionOf_eq_ok {region : Ty × Nat} : regionOf g name tokens = .ok region ↔
    (∃ t r, tokens = [t] ∧ t.kind = .word ∧ g.record? t.lexeme = some r
        ∧ region = (.pointerTo (.ofRecord r), (Ty.ofRecord r).size))
      ∨ (∀ t, tokens = [t] → t.kind = .word → g.record? t.lexeme = none)
        ∧ bareRegion g name tokens = .ok region := by
  unfold regionOf
  constructor
  · intro ok
    split at ok
    · rename_i t
      split at ok
      · rename_i word
        split at ok
        · rename_i r known
          cases ok
          exact .inl ⟨t, r, rfl, word, known, rfl⟩
        · rename_i unknown
          exact .inr ⟨fun u eq _ => by cases eq; exact unknown, ok⟩
      · rename_i other
        exact .inr ⟨fun u eq word => by cases eq; exact absurd word other, ok⟩
    · rename_i several
      exact .inr ⟨fun u eq _ => absurd eq (several u), ok⟩
  · rintro (⟨t, r, rfl, word, known, rfl⟩ | ⟨other, sized⟩)
    · simp only [word, known, if_true]
    · split
      · rename_i t
        split
        · rename_i word
          rw [other t rfl word]
          exact sized
        · exact sized
      · exact sized

end Plain

/-! ## Steps -/

/-- The tokens of a plain definition yield the meaning of its name. A memory takes up a region. -/
inductive Yields (s : Survey) (name : Token) (tokens : List Token) :
    Plain → Supply → Meaning → Prop where
  | record {r : Record} (spelled : recordOf s.globals name tokens = .ok r) :
      Yields s name tokens .record s.supply (.record r)
  | constant {value : Int64} (valued : Constant.eval s.globals name tokens = .ok value) :
      Yields s name tokens .constant s.supply (.constant value)
  | memory {ty : Ty} {size : Nat} (sized : regionOf s.globals name tokens = .ok (ty, size)) :
      Yields s name tokens .memory (s.supply.region name.lexeme size).2
        (.memory (s.supply.region name.lexeme size).1 ty)

theorem definePlain_eq_ok {plain : Plain} {name : Token} {tokens : List Token} :
    s.definePlain plain name tokens = .ok next ↔ ∃ supply meaning globals,
      Yields s name tokens plain supply meaning
        ∧ s.globals.define name.lexeme meaning name.place = .ok globals
        ∧ next = { s with globals := globals, supply := supply, phase := .between } := by
  unfold definePlain
  constructor
  · intro ok
    simp only at ok
    split at ok
    · split at ok
      · rename_i spelled
        split at ok
        · rename_i defined
          cases ok
          exact ⟨_, _, _, .record spelled, defined, rfl⟩
        · cases ok
      · cases ok
    · split at ok
      · rename_i valued
        split at ok
        · rename_i defined
          cases ok
          exact ⟨_, _, _, .constant valued, defined, rfl⟩
        · cases ok
      · cases ok
    · split at ok
      · rename_i sized
        split at ok
        · rename_i defined
          cases ok
          exact ⟨_, _, _, .memory sized, defined, rfl⟩
        · cases ok
      · cases ok
  · rintro ⟨supply, meaning, globals, yields, defined, rfl⟩
    cases yields with
    | record spelled => simp only [spelled, defined]
    | constant valued => simp only [valued, defined]
    | memory sized => simp only [sized, defined]

theorem defineFunction_eq_ok {naming : Naming} {contract : Contract}
    {params : Option (List (String × Ty))} :
    s.defineFunction naming contract params = .ok next ↔ ∃ globals,
      s.globals.define naming.name.lexeme
          (.function ⟨s.heads.length, functionLabel s.heads.length, contract, params⟩)
          naming.name.place = .ok globals
        ∧ next = { s with
          globals := globals
          heads := s.heads ++ [⟨naming.name.lexeme,
            ⟨s.heads.length, functionLabel s.heads.length, contract, params⟩, naming.name.place⟩]
          phase := .between } := by
  unfold defineFunction functionLabel
  constructor
  · intro ok
    simp only at ok
    split at ok
    · cases ok
    · rename_i globals defined
      cases ok
      exact ⟨globals, defined, rfl⟩
  · rintro ⟨globals, defined, rfl⟩
    simp only [defined]

/-- How a token that ends no definition changes the phase. Either no input has a name or all
have. -/
inductive Advances (g : Globals) (t : Token) : Survey.Phase → Survey.Phase → Prop where
  | between (other : ∀ k, t.kind = .keyword k → Form.ofKeyword? k = none) :
      Advances g t .between .between
  | opener {k : Keyword} {form : Form} (kind : t.kind = .keyword k)
      (defines : Form.ofKeyword? k = some form) : Advances g t .between (.naming form t.place)
  | plainName {plain : Plain} {opener : Place} (word : t.kind = .word) :
      Advances g t (.naming (.plain plain) opener) (.collecting plain ⟨opener, t⟩ [])
  | functionName {opener : Place} (word : t.kind = .word) :
      Advances g t (.naming .function opener) (.opening ⟨opener, t⟩)
  | collected {plain : Plain} {naming : Naming} {tokens : List Token} :
      Advances g t (.collecting plain naming tokens) (.collecting plain naming (t :: tokens))
  | openParen {naming : Naming} (kind : t.kind = .keyword .openParen) :
      Advances g t (.opening naming) (.inputs naming [] [])
  | namedInput {naming : Naming} {named : List (String × Ty)} {anonymous : List Ty}
      {name tyText : String} {ty : Ty} (word : t.kind = .word)
      (split : splitAtFirst? ':' t.lexeme = some (name, tyText))
      (valid : checkPinName name t.place = .ok ()) (typed : g.tyOf tyText t.place = .ok ty) :
      Advances g t (.inputs naming named anonymous) (.inputs naming (named ++ [(name, ty)]) anonymous)
  | anonymousInput {naming : Naming} {named : List (String × Ty)} {anonymous : List Ty} {ty : Ty}
      (word : t.kind = .word) (whole : splitAtFirst? ':' t.lexeme = none)
      (typed : g.tyOf t.lexeme t.place = .ok ty) :
      Advances g t (.inputs naming named anonymous) (.inputs naming named (anonymous ++ [ty]))
  | dashes {naming : Naming} {named : List (String × Ty)} {anonymous : List Ty}
      (kind : t.kind = .keyword .dashes) :
      Advances g t (.inputs naming named anonymous) (.outputs naming named anonymous [])
  | output {naming : Naming} {named : List (String × Ty)} {anonymous outputs : List Ty} {ty : Ty}
      (word : t.kind = .word) (typed : g.tyOf t.lexeme t.place = .ok ty) :
      Advances g t (.outputs naming named anonymous outputs)
        (.outputs naming named anonymous (outputs ++ [ty]))
  | anonymous {naming : Naming} {anonymous outputs : List Ty}
      (kind : t.kind = .keyword .closeParen) :
      Advances g t (.outputs naming [] anonymous outputs)
        (.body naming ⟨anonymous, outputs⟩ none 1)
  | named {naming : Naming} {named : List (String × Ty)} {outputs : List Ty} (any : named ≠ [])
      (kind : t.kind = .keyword .closeParen) :
      Advances g t (.outputs naming named [] outputs)
        (.body naming ⟨named.map (·.2), outputs⟩ (some named) 1)
  | block {naming : Naming} {contract : Contract} {params : Option (List (String × Ty))}
      {depth : Nat} {k : Keyword} (opens : k = .branch ∨ k = .loop ∨ k = .bind)
      (kind : t.kind = .keyword k) :
      Advances g t (.body naming contract params depth) (.body naming contract params (depth + 1))
  | semicolon {naming : Naming} {contract : Contract} {params : Option (List (String × Ty))}
      {depth : Nat} (kind : t.kind = .keyword .semicolon) :
      Advances g t (.body naming contract params depth) (.body naming contract params (depth - 1))
  | inside {naming : Naming} {contract : Contract} {params : Option (List (String × Ty))}
      {depth : Nat} (flat : ∀ k, t.kind = .keyword k →
        ¬ (k = .branch ∨ k = .loop ∨ k = .bind) ∧ k ≠ .semicolon) :
      Advances g t (.body naming contract params depth) (.body naming contract params depth)

theorem advance_eq_ok {g : Globals} {phase after : Survey.Phase} :
    advance g t phase = .ok after ↔ Advances g t phase after := by
  constructor
  · intro ok
    cases phase with
    | between =>
      simp only [advance] at ok
      split at ok
      · rename_i k kind
        split at ok
        · rename_i defines
          cases ok
          exact .opener kind defines
        · rename_i none
          cases ok
          refine .between fun j same => ?_
          cases kind.symm.trans same
          exact none
      · rename_i other
        cases ok
        exact .between fun k kind => absurd kind (other k)
    | naming form opener =>
      simp only [advance] at ok
      split at ok
      · rename_i word
        cases form <;> cases ok
        · exact .plainName word
        · exact .functionName word
      · cases ok
    | collecting plain naming tokens =>
      cases ok
      exact .collected
    | opening naming =>
      simp only [advance] at ok
      split at ok
      · rename_i kind
        cases ok
        exact .openParen kind
      · cases ok
    | inputs naming named anonymous =>
      simp only [advance] at ok
      split at ok
      · rename_i kind
        cases ok
        exact .dashes kind
      · rename_i word
        unfold input at ok
        split at ok
        · rename_i split
          split at ok
          · cases ok
          · rename_i valid
            split at ok
            · rename_i typed
              cases ok
              exact .namedInput word split valid typed
            · cases ok
        · rename_i whole
          split at ok
          · rename_i typed
            cases ok
            exact .anonymousInput word whole typed
          · cases ok
      · cases ok
    | outputs naming named anonymous outputs =>
      simp only [advance] at ok
      split at ok
      · rename_i kind
        unfold signature at ok
        split at ok
        · cases ok
          exact .anonymous kind
        · cases ok
          exact .named (List.cons_ne_nil _ _) kind
        · cases ok
      · rename_i word
        split at ok
        · rename_i typed
          cases ok
          exact .output word typed
        · cases ok
      · cases ok
    | body naming contract params depth =>
      simp only [advance] at ok
      split at ok
      · cases ok
        exact .block (.inl rfl) ‹_›
      · cases ok
        exact .block (.inr (.inl rfl)) ‹_›
      · cases ok
        exact .block (.inr (.inr rfl)) ‹_›
      · cases ok
        exact .semicolon ‹_›
      · rename_i branch loop bind stop
        cases ok
        refine .inside fun k kind => ⟨?_, ?_⟩
        · rintro (rfl | rfl | rfl)
          · exact branch kind
          · exact loop kind
          · exact bind kind
        · rintro rfl
          exact stop kind
  · intro advances
    cases advances with
    | between other =>
      simp only [advance]
      split
      · rename_i k kind
        rw [other k kind]
      · rfl
    | opener kind defines => simp only [advance, kind, defines]
    | plainName word | functionName word => simp only [advance, word, if_true]
    | collected => rfl
    | openParen kind => simp only [advance, kind, if_true]
    | namedInput word split valid typed => simp only [advance, word, input, split, valid, typed]
    | anonymousInput word whole typed => simp only [advance, word, input, whole, typed]
    | dashes kind => simp only [advance, kind]
    | output word typed => simp only [advance, word, typed]
    | anonymous kind => simp only [advance, kind, signature]
    | @named _ named _ any kind =>
      cases named with
      | nil => exact absurd rfl any
      | cons => simp only [advance, kind, signature]
    | block opens kind => rcases opens with rfl | rfl | rfl <;> simp only [advance, kind]
    | semicolon kind => simp only [advance, kind]
    | inside flat =>
      simp only [advance]
      split
      · exact absurd (.inl rfl) (flat _ ‹_›).1
      · exact absurd (.inr (.inl rfl)) (flat _ ‹_›).1
      · exact absurd (.inr (.inr rfl)) (flat _ ‹_›).1
      · exact absurd rfl (flat _ ‹_›).2
      · rfl

/-- What one token can do to the first reading. A `;` ends a plain definition, or a function where
no block is open; any other token changes the phase alone. -/
inductive Moves (s : Survey) (t : Token) : Survey → Prop where
  | plain {next : Survey} {plain : Plain} {naming : Naming} {tokens : List Token}
      (phase : s.phase = .collecting plain naming tokens) (kind : t.kind = .keyword .semicolon)
      (defined : s.definePlain plain naming.name tokens.reverse = .ok next) : Moves s t next
  | function {next : Survey} {naming : Naming} {contract : Contract}
      {params : Option (List (String × Ty))} (phase : s.phase = .body naming contract params 1)
      (kind : t.kind = .keyword .semicolon)
      (defined : s.defineFunction naming contract params = .ok next) : Moves s t next
  | onward {after : Survey.Phase} (advanced : advance s.globals t s.phase = .ok after)
      (plain : ∀ p n ts, s.phase = .collecting p n ts → t.kind ≠ .keyword .semicolon)
      (function : ∀ n c ps, s.phase = .body n c ps 1 → t.kind ≠ .keyword .semicolon) :
      Moves s t { s with phase := after }

/-- A token that is not refused does one of these things. -/
theorem step_moves (ok : s.step t = .ok next) : Moves s t next := by
  unfold step at ok
  split at ok
  · rename_i phase kind
    exact .plain phase kind ok
  · rename_i phase kind
    exact .function phase kind ok
  · rename_i plain function
    split at ok
    · rename_i advanced
      cases ok
      exact .onward advanced (fun p n ts phase kind => plain p n ts phase kind)
        fun n c ps phase kind => function n c ps phase kind
    · cases ok

end Survey

/-! ## Sound names -/

def Head.call (h : Head) : Call := ⟨h.signature.label, h.name, h.signature.contract⟩

/-- A name may stand for this. -/
def Meaning.Sound (callees : List Call) (name : String) : Meaning → Prop
  | .record r => r.Sound
  | .constant _ => True
  | .memory _ ty => ty.isPointer = true ∧ ty.Sound
  | .function signature => ⟨signature.label, name, signature.contract⟩ ∈ callees

/-- All global names stand for sound things. -/
def Globals.Sound (callees : List Call) (g : Globals) : Prop :=
  ∀ entry ∈ g.entries, entry.meaning.Sound callees entry.name

namespace Globals

variable {callees : List Call} {g : Globals}

theorem sound_initial : Globals.initial.Sound callees := by
  intro entry mem
  simp only [initial, List.mem_cons, List.not_mem_nil, or_false] at mem
  rcases mem with rfl | rfl
  · exact Record.sound_str
  · exact Record.sound_cstr

theorem Sound.of_find? (h : g.Sound callees) {name : String} {meaning : Meaning}
    (found : g.find? name = some meaning) : meaning.Sound callees name := by
  obtain ⟨entry, here, rfl⟩ := Option.map_eq_some_iff.1 found
  have eq : entry.name = name := by simpa using List.find?_some here
  exact eq ▸ h entry (List.mem_of_find?_eq_some here)

theorem Sound.of_record? (h : g.Sound callees) {name : String} {r : Record}
    (found : g.record? name = some r) : r.Sound := h.of_find? (record?_eq_some.1 found)

theorem Sound.mono (h : g.Sound callees) {more : List Call} (le : callees ⊆ more) :
    g.Sound more := by
  intro entry mem
  have sound := h entry mem
  cases hm : entry.meaning with
  | function signature =>
    rw [hm] at sound
    exact le sound
  | record _ => simpa [hm, Meaning.Sound] using sound
  | constant _ => trivial
  | memory _ _ => simpa [hm, Meaning.Sound] using sound

theorem Sound.define (h : g.Sound callees) {next : Globals} {name : String} {meaning : Meaning}
    {place : Place} (defined : g.define name meaning place = .ok next)
    (sound : meaning.Sound callees name) : next.Sound callees := by
  obtain ⟨-, -, -, rfl⟩ := define_eq_ok.1 defined
  exact List.forall_mem_cons.2 ⟨sound, h⟩

theorem tyNamed_sound (h : g.Sound callees) {name : String} {place : Place} {ty : Ty}
    (ok : g.tyNamed name place = .ok ty) : ty.Sound := by
  obtain ⟨-, rfl⟩ | ⟨-, rfl⟩ | ⟨-, -, -, r, known, rfl⟩ := tyNamed_eq_ok.1 ok
  · exact .inl rfl
  · exact .inr rfl
  · exact Ty.sound_ofRecord (h.of_record? known)

theorem tyOf_sound (h : g.Sound callees) {text : String} {place : Place} {ty : Ty}
    (ok : g.tyOf text place = .ok ty) : ty.Sound := by
  rw [tyOf_eq_ok] at ok
  generalize text.toList = chars at ok
  induction ok with
  | named _ named => exact tyNamed_sound h named
  | @pointer _ target _ sound => exact (sound : target.Sound)

end Globals

namespace Survey

/-- Sound types and the names that go with them. -/
def SoundParams (params : List (String × Ty)) : Prop := ∀ p ∈ params, p.2.Sound

/-- What the first reading has in hand of a definition is sound. -/
def Phase.Sound : Survey.Phase → Prop
  | .inputs _ named anonymous => SoundParams named ∧ ∀ t ∈ anonymous, t.Sound
  | .outputs _ named anonymous left =>
      (SoundParams named ∧ ∀ t ∈ anonymous, t.Sound) ∧ ∀ t ∈ left, t.Sound
  | .body _ contract params _ => contract.Sound ∧ SoundParams (params.getD [])
  | _ => True

end Survey

/-- A function whose signature is sound. -/
def Head.Sound (h : Head) : Prop :=
  h.signature.contract.Sound ∧ Survey.SoundParams (h.signature.params.getD [])

namespace Survey

/-- What holds of the first reading at every token. -/
structure Sound (s : Survey) : Prop where
  globals : s.globals.Sound (s.heads.map Head.call)
  heads : ∀ h ∈ s.heads, h.Sound
  labels : s.heads.map (·.signature.label) = (List.range s.heads.length).map functionLabel
  phase : s.phase.Sound

variable {s next : Survey}

/-! ## Records, constants and memories -/

theorem addField_sound {g : Globals} {callees : List Call} (hg : g.Sound callees)
    {record : String} {fields more : List PinnedStack.Field} {t : Token}
    (ok : addField g record fields t = .ok more)
    (h : ∀ f ∈ fields, f.kind = .number ∨ f.kind = .pointer) :
    ∀ f ∈ more, f.kind = .number ∨ f.kind = .pointer := by
  obtain ⟨field, tyText, ty, kind, -, -, -, typed, single, -, rfl⟩ := addField_eq_ok.1 ok
  intro f mem
  rcases List.mem_append.1 mem with mem | mem
  · exact h f mem
  · obtain rfl := List.mem_singleton.1 mem
    exact (Globals.tyOf_sound hg typed).kind_eq single

theorem fieldsOf_sound {g : Globals} {callees : List Call} (hg : g.Sound callees)
    {record : String} {fields more : List PinnedStack.Field} {ts : List Token}
    (ok : fieldsOf g record fields ts = .ok more)
    (h : ∀ f ∈ fields, f.kind = .number ∨ f.kind = .pointer) :
    ∀ f ∈ more, f.kind = .number ∨ f.kind = .pointer := by
  induction ts generalizing fields with
  | nil =>
    cases ok
    exact h
  | cons t ts ih =>
    simp only [fieldsOf] at ok
    split at ok
    · rename_i one here
      exact ih ok (addField_sound hg here h)
    · cases ok

theorem recordOf_sound {g : Globals} {callees : List Call} (hg : g.Sound callees) {name : Token}
    {ts : List Token} {r : Record} (ok : recordOf g name ts = .ok r) : r.Sound := by
  obtain ⟨fields, spelled, any, rfl⟩ := recordOf_eq_ok.1 ok
  exact ⟨any, fieldsOf_sound hg spelled (by simp)⟩

theorem regionOf_sound {g : Globals} {callees : List Call} (hg : g.Sound callees) {name : Token}
    {ts : List Token} {ty : Ty} {size : Nat} (ok : regionOf g name ts = .ok (ty, size)) :
    ty.isPointer = true ∧ ty.Sound := by
  obtain ⟨t, r, -, -, known, eq⟩ | ⟨-, bare⟩ := regionOf_eq_ok.1 ok
  · cases eq
    exact ⟨rfl, Ty.sound_ofRecord (hg.of_record? known)⟩
  · obtain ⟨size, -, -, eq⟩ := bareRegion_eq_ok.1 bare
    cases eq
    exact ⟨rfl, .inr rfl⟩

theorem definePlain_sound {plain : Plain} {name : Token} {ts : List Token} (h : s.Sound)
    (ok : s.definePlain plain name ts = .ok next) : next.Sound := by
  obtain ⟨supply, meaning, globals, yields, defined, rfl⟩ := definePlain_eq_ok.1 ok
  have sound : meaning.Sound (s.heads.map Head.call) name.lexeme := by
    cases yields with
    | record spelled => exact recordOf_sound h.globals spelled
    | constant => trivial
    | memory sized => exact regionOf_sound h.globals sized
  exact ⟨h.globals.define defined sound, h.heads, h.labels, trivial⟩

/-! ## Functions -/

theorem defineFunction_sound {naming : Naming} {contract : Contract}
    {params : Option (List (String × Ty))} (h : s.Sound) (hc : contract.Sound)
    (hp : SoundParams (params.getD []))
    (ok : s.defineFunction naming contract params = .ok next) : next.Sound := by
  obtain ⟨globals, defined, rfl⟩ := defineFunction_eq_ok.1 ok
  refine ⟨?_, ?_, ?_, trivial⟩
  · refine (h.globals.mono ?_).define defined ?_
    · simp
    · simp [Meaning.Sound, Head.call]
  · intro head mem
    rcases List.mem_append.1 mem with mem | mem
    · exact h.heads head mem
    · obtain rfl := List.mem_singleton.1 mem
      exact ⟨hc, hp⟩
  · simp [h.labels, List.range_succ]

theorem advance_sound {g : Globals} {callees : List Call} (hg : g.Sound callees) {t : Token}
    {phase after : Survey.Phase} (h : phase.Sound) (ok : advance g t phase = .ok after) :
    after.Sound := by
  cases advance_eq_ok.1 ok with
  | between | opener | plainName | functionName | collected => trivial
  | openParen => exact ⟨by simp [SoundParams], by simp⟩
  | namedInput _ _ _ typed =>
    have sound := Globals.tyOf_sound hg typed
    exact ⟨List.forall_mem_append.2 ⟨h.1, List.forall_mem_singleton.2 sound⟩, h.2⟩
  | anonymousInput _ _ typed =>
    have sound := Globals.tyOf_sound hg typed
    exact ⟨h.1, List.forall_mem_append.2 ⟨h.2, List.forall_mem_singleton.2 sound⟩⟩
  | dashes => exact ⟨h, by simp⟩
  | output _ typed =>
    have sound := Globals.tyOf_sound hg typed
    exact ⟨h.1, List.forall_mem_append.2 ⟨h.2, List.forall_mem_singleton.2 sound⟩⟩
  | anonymous => exact ⟨⟨h.1.2, h.2⟩, by simp [SoundParams]⟩
  | named => exact ⟨⟨List.forall_mem_map.2 h.1.1, h.2⟩, h.1.1⟩
  | block | semicolon | inside => exact h

/-! ## The whole reading -/

/-- One token keeps what the first reading has recorded sound. -/
theorem step_sound {t : Token} (h : s.Sound) (ok : s.step t = .ok next) : next.Sound := by
  cases step_moves ok with
  | plain phase kind defined => exact definePlain_sound h defined
  | function phase kind defined =>
    have sound := h.phase
    rw [phase] at sound
    exact defineFunction_sound h sound.1 sound.2 defined
  | onward advanced =>
    exact ⟨h.globals, h.heads, h.labels, advance_sound h.globals h.phase advanced⟩

theorem run_sound {ts : List Token} (h : s.Sound) (ok : s.run ts = .ok next) : next.Sound := by
  induction ts generalizing s with
  | nil =>
    cases ok
    exact h
  | cons t ts ih =>
    simp only [run] at ok
    split at ok
    · rename_i one here
      exact ih (step_sound h here) ok
    · cases ok

theorem start_sound (limits : Limits) : (Survey.start limits).Sound :=
  ⟨Globals.sound_initial, by simp [start], by simp [start], trivial⟩

theorem finish_eq_ok {stop : Place} (ok : s.finish stop = .ok next) :
    next = s ∧ s.phase = .between := by
  unfold finish at ok
  split at ok
  · rename_i eq
    cases ok
    exact ⟨rfl, eq⟩
  all_goals cases ok

theorem ofTokens_eq_ok {limits : Limits} {text : Scanned} (ok : ofTokens limits text = .ok s) :
    (Survey.start limits).run text.tokens = .ok s ∧ s.phase = .between := by
  unfold ofTokens at ok
  split at ok
  · rename_i last here
    obtain ⟨rfl, eq⟩ := finish_eq_ok ok
    exact ⟨here, eq⟩
  · cases ok

/-- The first reading of a text records sound definitions. -/
theorem ofTokens_sound {limits : Limits} {text : Scanned} (ok : ofTokens limits text = .ok s) :
    s.Sound := run_sound (start_sound limits) (ofTokens_eq_ok ok).1

end Survey

end PinnedStack
