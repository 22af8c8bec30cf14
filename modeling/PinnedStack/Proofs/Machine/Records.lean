import PinnedStack.Proofs.Machine.Primitives
import PinnedStack.Proofs.Tree.Reached

/-!
# Records in memory

* `Record.Covers` — the bytes of a record at an address, a word for each field.
* `Record.Stores`, `Record.Moves` — what the code of a store and of a field does, whatever the pointer.
* `Record.Ready` — a pointer above the words of a record on the data stack, which the record there is
  apart from. `Record.Keeps` — then the record keeps them, and the code of a load puts them back.
* `Record.Typed` — the types that verification gives to the words.
* `Program.reserves_record` — the bytes that a memory of a record reserves.
* `Record.stores_and_loads` — loads put back what stores took, field by field, and stay in bounds.
-/

namespace PinnedStack

open Asm

/-! ## Words behind an address -/

namespace Asm.Memory

variable {m : Memory} {a x w : Word}

theorem Lie.get {n i : Nat} {ws : List Word} (lie : m.Lie n ws) (found : ws[i]? = some w) :
    m.load (BitVec.ofNat 64 (n + 8 * i)) = w := by
  induction ws generalizing n i with
  | nil => cases found
  | cons v ws ih =>
    obtain ⟨first, rest⟩ := lie
    cases i with
    | zero =>
      cases found
      exact first
    | succ i =>
      have next : n + 8 + 8 * i = n + 8 * (i + 1) := by omega
      exact next ▸ ih rest found

/-- A store behind an address leaves the bytes alone that lie farther away. -/
theorem store_behind {n : Nat} (far : n + 8 ≤ (x - a).toNat) :
    m.store (a + BitVec.ofNat 64 n) w x = m x := by
  refine store_of_apart ?_
  have near := (x - a).isLt
  rw [sub_add_eq_sub_sub, BitVec.toNat_sub, BitVec.toNat_ofNat]
  omega

end Asm.Memory

/-! ## Fields -/

namespace Record

variable {r : Record} {a x : Word} {m : Memory} {ws : List Word}

/-- The bytes of a record at an address, a word for each field. Addresses wrap around. -/
def Covers (r : Record) (a x : Word) : Prop := (x - a).toNat < r.size

theorem getElem?_layout (r : Record) (i : Nat) :
    r.layout[i]? = r.fields[i]?.map fun f => ⟨f.name, 8 * i, f.kind⟩ := by
  simp [layout, wordBytes, Nat.mul_comm 8, Function.comp_def]

theorem offsets_layout (r : Record) :
    r.layout.map (·.offset) = (List.range r.fields.length).map (8 * ·) := by
  refine List.ext_getElem? fun i => ?_
  simp only [List.getElem?_map, getElem?_layout, Option.map_map]
  by_cases lt : i < r.fields.length <;> simp [lt]

theorem offset_add_le {f : PlacedField} (mem : f ∈ r.layout) : f.offset + 8 ≤ r.size := by
  have place : f.offset ∈ (List.range r.fields.length).map (8 * ·) :=
    r.offsets_layout ▸ List.mem_map_of_mem mem
  simp only [List.mem_map, List.mem_range] at place
  obtain ⟨k, lt, eq⟩ := place
  unfold size wordBytes
  omega

/-- All bytes of a field are among those of the record. -/
theorem covers_field {f : PlacedField} (mem : f ∈ r.layout) {i : Nat} (few : i < 8) :
    r.Covers a (a + BitVec.ofNat 64 f.offset + BitVec.ofNat 64 i) := by
  have inside := offset_add_le mem
  unfold Covers
  rw [BitVec.add_assoc, ← BitVec.ofNat_add, add_sub_cancel_left, BitVec.toNat_ofNat]
  omega

/-- The words of the fields are those that lie at the address of the record. -/
theorem words_of_lie {vs : List Word} (count : vs.length = r.fields.length)
    (lie : m.Lie a.toNat vs) : (r.layout.map fun f => m.load (a + BitVec.ofNat 64 f.offset)) = vs := by
  refine List.ext_getElem? fun i => ?_
  rw [List.getElem?_map, getElem?_layout, Option.map_map]
  by_cases lt : i < r.fields.length
  · have found := List.getElem?_eq_getElem (count ▸ lt : i < vs.length)
    have here := lie.get found
    rw [BitVec.ofNat_add, BitVec.ofNat_toNat, BitVec.setWidth_eq] at here
    rw [List.getElem?_eq_getElem lt, found, ← here]
    rfl
  · rw [List.getElem?_eq_none (Nat.le_of_not_lt lt),
      List.getElem?_eq_none (count ▸ Nat.le_of_not_lt lt)]
    rfl

/-- Words that go to places behind an address, the first one farthest away. -/
theorem lie_foldl_store {fields : List PlacedField}
    (places : fields.map (·.offset) = ((List.range ws.length).map (8 * ·)).reverse)
    (fits : 8 * ws.length ≤ 2 ^ 64) {last : Memory}
    (stores : (fields.zip ws).foldl (fun m p => m.store (a + BitVec.ofNat 64 p.1.offset) p.2) m
      = last) :
    (∀ x : Word, 8 * ws.length ≤ (x - a).toNat → last x = m x) ∧ last.Lie a.toNat ws.reverse := by
  induction ws generalizing m fields with
  | nil =>
    rw [List.zip_nil_right] at stores
    cases stores
    exact ⟨fun _ _ => rfl, trivial⟩
  | cons w ws ih =>
    rw [List.length_cons] at fits places ⊢
    rw [List.range_succ, List.map_append, List.reverse_append] at places
    obtain ⟨f, fields, rfl, offset, places⟩ := List.map_eq_cons_iff.1 places
    rw [List.zip_cons_cons, List.foldl_cons, offset] at stores
    obtain ⟨same, lie⟩ := ih places (by omega) stores
    refine ⟨fun x far => ?_, ?_⟩
    · rw [same x (by omega), Memory.store_behind (by omega)]
    · rw [List.reverse_cons, Memory.lie_append, List.length_reverse]
      refine ⟨lie, ?_, trivial⟩
      -- The stores that follow go to nearer places and leave this word alone.
      rw [BitVec.ofNat_add, BitVec.ofNat_toNat, BitVec.setWidth_eq]
      refine Eq.trans (Memory.load_congr fun i few => ?_) (Memory.load_store_same m _ w)
      refine same _ ?_
      rw [BitVec.add_assoc, ← BitVec.ofNat_add, add_sub_cancel_left, BitVec.toNat_ofNat]
      omega

/-- The words that a store takes lie in the record, the one on top last. -/
theorem lie_stored (count : ws.length = r.fields.length) (fits : r.size ≤ 2 ^ 64) :
    ((Access.record r).stored m a ws).Lie a.toNat ws.reverse := by
  have size : 8 * ws.length = r.size := by rw [count, size, wordBytes, Nat.mul_comm]
  have places : r.layout.reverse.map (·.offset) = ((List.range ws.length).map (8 * ·)).reverse := by
    rw [List.map_reverse, offsets_layout, count]
  exact (lie_foldl_store (a := a) (m := m) places (size ▸ fits) rfl).2

end Record

/-! ## Any pointer -/

/-- Words that are popped into fields change no bytes that all fields are apart from, even if the
fields overlap the words. -/
theorem outcomes_popFields {L : Layout} {t : State} {a : Word} {n : Nat} {fields : List PlacedField}
    (rax : t.regs .rax = a) (inside : ∀ f ∈ fields, f.offset + 8 ≤ n) :
    ∃ u, outcomes L (fields.map fun f => .pop (.qword (.offset .rax f.offset))) t = some u
      ∧ u.regs .rsp = t.regs .rsp + BitVec.ofNat 64 (8 * fields.length)
      ∧ u.regs .r15 = t.regs .r15 ∧ ∀ x : Word, n ≤ (x - a).toNat → u.mem x = t.mem x := by
  induction fields generalizing t with
  | nil => exact ⟨t, rfl, (BitVec.add_zero _).symm, rfl, fun _ _ => rfl⟩
  | cons f fields ih =>
    obtain ⟨first, inside⟩ := List.forall_mem_cons.1 inside
    subst rax
    let next : State := { t.pop with
      mem := t.mem.store (t.regs .rax + BitVec.ofNat 64 f.offset) t.top }.goto (t.pc + 1)
    obtain ⟨u, done, rsp, r15, same⟩ := ih (t := next) rfl inside
    refine ⟨u, done, ?_, r15, fun x far => ?_⟩
    · rw [rsp, List.length_cons]
      exact add_eight_add (t.regs .rsp) fields.length
    · rw [same x far]
      exact Memory.store_behind (first.trans far)

namespace Record

/-- What the code of a store does: the pointer and as many words as there are fields are off the
stack, and all bytes outside the record at the pointer are as they were. -/
structure Stores (r : Record) (M : Image) (s t : State) : Prop where
  straight : ∀ calls, M.Straight ⟨s, calls⟩ ⟨t, calls⟩
  pc : t.pc = s.pc + (Op.store (.record r)).code.length
  rsp : t.regs .rsp = s.regs .rsp + BitVec.ofNat 64 (8 * (r.fields.length + 1))
  r15 : t.regs .r15 = s.regs .r15
  same : ∀ x, ¬ r.Covers s.top x → t.mem x = s.mem x

/-- The code of a field moves a pointer to the bytes of that field in the record. -/
def Moves (r : Record) : Prop :=
  ∀ (i : Nat) (f : PlacedField), r.layout[i]? = some f → r.fields[i]? = some ⟨f.name, f.kind⟩
    ∧ ∀ a : Word, (∀ j < 8, r.Covers a (a + BitVec.ofNat 64 f.offset + BitVec.ofNat 64 j))
      ∧ ∀ (M : Image) base u calls rest, base.Grown u (a :: rest) →
        M.Holds u.pc (Op.field r f).code →
          M.Leads base u calls (Op.field r f).code.length ((a + BitVec.ofNat 64 f.offset) :: rest)

theorem exists_stores {r : Record} {M : Image} {s : State}
    (holds : M.Holds s.pc (Op.store (.record r)).code) :
    ∃ t, outcomes M.layout (Op.store (.record r)).code s = some t ∧ r.Stores M s t := by
  let u : State := (s.pop.set .rax s.top).goto (s.pc + 1)
  have inside : ∀ f ∈ r.layout.reverse, f.offset + 8 ≤ r.size :=
    fun f mem => offset_add_le (List.mem_reverse.1 mem)
  obtain ⟨t, done, rsp, r15, same⟩ :=
    outcomes_popFields (L := M.layout) (t := u) (a := s.top) rfl inside
  have whole : outcomes M.layout (Op.store (.record r)).code s = some t := done
  refine ⟨t, whole, fun calls => holds.straight whole, outcomes_pc whole, ?_, r15,
    fun x other => same x (Nat.le_of_not_lt other)⟩
  rw [rsp, List.length_reverse, length_layout]
  exact add_eight_add (s.regs .rsp) r.fields.length

theorem moves (r : Record) : r.Moves := by
  intro i f found
  refine ⟨?_, fun a => ⟨fun j few => covers_field (List.mem_of_getElem? found) few, ?_⟩⟩
  · rw [getElem?_layout] at found
    obtain ⟨g, field, rfl⟩ := Option.map_eq_some_iff.1 found
    exact field
  · intro M base u calls rest grown holds
    have size := grown.rsp
    have made : (Op.field r f).words? M.layout u.mem (a :: rest)
        = some ((a + BitVec.ofNat 64 f.offset) :: rest) := rfl
    rw [List.length_cons] at size
    exact (Op.leaving_words grown made (by rw [List.length_cons]; omega) trivial).leads holds

end Record

/-! ## Pointers away from the words -/

namespace Record

/-- A pointer lies on the data stack, above the words of a record, and the bytes of the record there
are apart from these words. -/
structure Ready (r : Record) (s : State) (a : Word) (ws : List Word) : Prop where
  count : ws.length = r.fields.length
  words : s.mem.Lie (s.regs .rsp).toNat (a :: ws)
  fits : (s.regs .rsp).toNat + 8 * (ws.length + 1) < 2 ^ 64
  apart : ∀ x, r.Covers a x → x.toNat < (s.regs .rsp).toNat + 8
    ∨ (s.regs .rsp).toNat + 8 * (ws.length + 1) ≤ x.toNat

/-- The record at a pointer holds some words, the one on top of the stack in its last field, and behind
the pointer the code of a load puts them on the stack again. -/
structure Keeps (r : Record) (M : Image) (t : State) (a : Word) (ws : List Word) : Prop where
  field : ∀ (i : Nat) (f : PlacedField), r.layout[i]? = some f →
    ws.reverse[i]? = some (t.mem.load (a + BitVec.ofNat 64 f.offset))
  load : ∀ u calls, t.Leaves t u [a] → M.Holds u.pc (Op.load (.record r)).code →
    M.Leads t u calls (Op.load (.record r)).code.length ws

variable {r : Record} {M : Image} {s t : State} {a : Word} {ws : List Word}

namespace Ready

theorem size (ready : r.Ready s a ws) : 8 * ws.length = r.size := by
  rw [ready.count, Record.size, wordBytes, Nat.mul_comm]

theorem size_le (ready : r.Ready s a ws) : r.size ≤ 2 ^ 64 := by
  have fits := ready.fits
  have size := ready.size
  omega

theorem off (ready : r.Ready s a ws) : FieldsOff ((s.regs .rsp).toNat + 8)
    ((s.regs .rsp).toNat + 8 * (ws.length + 1)) a r.layout :=
  fun _ mem _ few => ready.apart _ (covers_field mem few)

/-- The words of the fields lie in memory behind a store. -/
theorem lie (ready : r.Ready s a ws)
    (done : outcomes M.layout (Op.store (.record r)).code s = some t) :
    t.mem.Lie a.toNat ws.reverse := by
  obtain ⟨top, words⟩ := ready.words
  have fits := ready.fits
  rw [BitVec.ofNat_toNat, BitVec.setWidth_eq] at top
  let u : State := (s.pop.set .rax s.top).goto (s.pc + 1)
  have next : (u.regs .rsp).toNat = (s.regs .rsp).toNat + 8 :=
    toNat_add_ofNat (a := s.regs .rsp) (n := 8) (by omega)
  have count : r.layout.reverse.length = ws.length := by
    rw [List.length_reverse, r.length_layout, ready.count]
  obtain ⟨v, again, mem, -⟩ := outcomes_storeFields (L := M.layout) (t := u) (a := a) top
    count.le (next ▸ words) (by omega) fits
    fun f mem => next ▸ ready.off f (List.mem_reverse.1 mem)
  obtain rfl : t = v := Option.some.inj (done.symm.trans again)
  have stored : t.mem = (Access.record r).stored s.mem a ws := mem
  rw [stored]
  exact lie_stored ready.count ready.size_le

/-- **A record that is apart from the words it is stored from keeps them.** -/
theorem keeps (ready : r.Ready s a ws) (stores : r.Stores M s t)
    (lie : t.mem.Lie a.toNat ws.reverse) : r.Keeps M t a ws := by
  have whole := words_of_lie (by rw [List.length_reverse, ready.count]) lie
  refine ⟨fun i f found => ?_, fun u calls pushed holds => ?_⟩
  · rw [← whole, List.getElem?_map, found]
    rfl
  · have fits := ready.fits
    have rsp : (t.regs .rsp).toNat = (s.regs .rsp).toNat + 8 * (ws.length + 1) := by
      rw [stores.rsp, ← ready.count, toNat_add_ofNat fits]
    have top := pushed.grown.rsp
    have count : r.layout.length = ws.length := by rw [r.length_layout, ready.count]
    have off := ready.off
    rw [← rsp] at off
    rw [List.length_singleton] at top
    -- The pointer is pushed where the words have been, so that the record is still there.
    have words : fieldWords u.mem a r.layout = ws := by
      rw [fieldWords, ← ws.reverse_reverse, ← whole]
      refine congrArg List.reverse
        (List.map_congr_left fun f mem => Memory.load_congr fun i few => ?_)
      have some := List.length_pos_of_mem mem
      rcases off f mem i few with low | high
      · exact pushed.below _ (by omega)
      · exact pushed.grown.above _ high
    have made : (Op.load (.record r)).words? M.layout u.mem [a] = some ws := by
      show some (fieldWords u.mem a r.layout ++ []) = some ws
      rw [words, List.append_nil]
    have apart : (Op.load (.record r)).OffStack t [a] := by
      have low : (t.regs .rsp).toNat - 8 * (r.layout.length + 0) = (s.regs .rsp).toNat + 8 := by
        omega
      show FieldsOff ((t.regs .rsp).toNat - 8 * (r.layout.length + 0)) _ a r.layout
      exact low ▸ off
    exact (Op.leaving_words pushed.grown made (by omega) apart).leads holds

end Ready

end Record

/-! ## The types of the words -/

/-- The type of a record has the words of its fields, even if it is just that of the only one. -/
theorem Ty.words_ofRecord (r : Record) :
    (Ty.ofRecord r).words = r.fields.map (.word ·.kind) := by
  unfold Ty.ofRecord
  split
  · rename_i only fields
    rw [fields]
    rfl
  · rfl

theorem pointee_record {r : Record} {op : String} {address ty : Ty} {place : Place}
    (ok : pointee op address (.record r) place = .ok ty) :
    address.isPointer = true ∧ ty = .ofRecord r := by
  unfold pointee at ok
  simp only at ok
  split at ok
  · cases ok
  · rename_i pointer
    refine ⟨by simpa using pointer, ?_⟩
    cases target : address.target? with
    | none =>
      rw [target] at ok
      cases ok
      rfl
    | some t =>
      rw [target] at ok
      simp only at ok
      split at ok
      · cases ok
        rfl
      · cases ok

namespace Record

/-- Verification gives the words of a record the kinds of its fields, that of the last one on top:
those that a store takes, and those that a load pushes. -/
structure Typed (r : Record) : Prop where
  store : ∀ place k after, (Op.store (.record r)).verify place k = .ok after →
    ∃ c taken, k.shape.cells = c :: (taken ++ after.shape.cells) ∧ c.ty.isPointer = true
      ∧ List.Forall₂ (fun (c : Cell) (f : Field) => c.ty.fits (.word f.kind) = true) taken
        r.fields.reverse
  load : ∀ place k after, (Op.load (.record r)).verify place k = .ok after →
    ∃ c rest, k.shape.cells = c :: rest ∧ c.ty.isPointer = true
      ∧ after.shape.cells = (r.fields.reverse.map fun f => ⟨.word f.kind, place⟩) ++ rest

theorem typed (r : Record) : r.Typed where
  store place k after ok := by
    obtain ⟨last, turns, rfl⟩ := (Op.verify_eq_ok rfl).1 ok
    obtain ⟨⟨cells⟩, sightings⟩ := k
    cases turns with
    | store wide leads fits =>
      obtain ⟨pointer, rfl⟩ := pointee_record leads
      rw [Ty.words_ofRecord, ← List.map_reverse, List.forall₂_map_right_iff] at fits
      exact ⟨_, _, rfl, pointer, fits⟩
    | fixed effect => cases effect
  load place k after ok := by
    obtain ⟨last, turns, rfl⟩ := (Op.verify_eq_ok rfl).1 ok
    obtain ⟨⟨cells⟩, sightings⟩ := k
    cases turns with
    | load wide leads =>
      obtain ⟨pointer, rfl⟩ := pointee_record leads
      refine ⟨_, _, rfl, pointer, ?_⟩
      simp only [Shape.push, Ty.words_ofRecord, List.map_reverse, List.map_map]
      rfl
    | fixed effect => cases effect

end Record

/-! ## Memories of records -/

namespace Program

variable {limits : Limits} {text : Scanned} {p : Program} {tables : Tables} {survey : Survey}
  {lines : List Token} {name only : Token} {r : Record}

/-- **A memory of a record reserves the bytes of its fields**, and its name stands for their
address. -/
theorem reserves_record (ok : Program.ofTokens limits text = .ok (p, tables))
    (surveyed : Survey.ofTokens limits text = .ok survey)
    (defined : lines ∈ (Survey.start limits).texts text.tokens)
    (spells : Plain.memory.Spells lines name [only]) (word : only.kind = .word)
    (known : survey.globals.record? only.lexeme = some r) :
    ∃ label n, survey.globals.find? name.lexeme = some (.memory label (.pointerTo (.ofRecord r)))
      ∧ .reserve label .bytes n (some name.lexeme) ∈ p.lines tables limits ∧ r.size ≤ n := by
  obtain ⟨again, items, last, first, -, elaborates, rfl⟩ := elaborates_of_ofTokens ok
  cases surveyed.symm.trans first
  obtain ⟨found, meaning, gives, known'⟩ := Survey.gives_texts surveyed lines defined
  obtain ⟨rfl, label, ty, size, rfl, region, stored⟩ := gives.memory_of_spells spells
  have regions : survey.supply.tables.regions <+: last.tables.regions :=
    elaborates.grows.regions ▸ List.prefix_refl _
  have whole : (Ty.ofRecord r).size = r.size := by
    rw [Ty.size_eq, Ty.width_ofRecord, Record.size]
  simp only [Survey.regionOf, word, if_true, known] at region
  cases region
  refine ⟨label, max (Ty.ofRecord r).size 1, known', ?_, whole.ge.trans (Nat.le_max_left ..)⟩
  have entry := List.mem_map_of_mem
    (f := fun (e : String × Region) => Line.reserve e.1 .bytes (max e.2.size 1) (some e.2.name))
    (Tables.labelledRegions_subset regions stored)
  exact List.mem_append_right _ (List.mem_append_right _ entry)

end Program

/-- **What a store of a record takes, a load puts back, and both stay in bounds.** For a record of any
fields, and any pointer,
* the code of a store changes no other bytes than those of the record there,
* where these are apart from the words on the data stack, the record keeps the words, and the code of a
  load, behind the same pointer, puts them back, under the kinds that verification took them for,
* the code of a field moves the pointer to the bytes of that field, and
* a memory of the record reserves all its bytes. -/
theorem Record.stores_and_loads (r : Record) :
    r.Typed ∧ r.Moves
    ∧ (∀ (M : Image) (s : State), M.Holds s.pc (Op.store (.record r)).code →
        ∃ t, r.Stores M s t ∧ ∀ a ws, r.Ready s a ws → r.Keeps M t a ws)
    ∧ ∀ limits text p tables survey, Program.ofTokens limits text = .ok (p, tables) →
        Survey.ofTokens limits text = .ok survey →
        ∀ lines ∈ (Survey.start limits).texts text.tokens, ∀ name only,
          Plain.memory.Spells lines name [only] → only.kind = .word →
          survey.globals.record? only.lexeme = some r →
            ∃ label n,
              survey.globals.find? name.lexeme = some (.memory label (.pointerTo (.ofRecord r)))
              ∧ .reserve label .bytes n (some name.lexeme) ∈ p.lines tables limits
              ∧ ∀ (L : Layout) x, r.Covers (L.symbol label) x → (x - L.symbol label).toNat < n := by
  refine ⟨r.typed, r.moves, fun M s holds => ?_, ?_⟩
  · obtain ⟨t, done, stores⟩ := Record.exists_stores holds
    exact ⟨t, stores, fun a ws ready => ready.keeps stores (ready.lie done)⟩
  · intro limits text p tables survey ok surveyed lines defined name only spells word known
    obtain ⟨label, n, found, reserved, size⟩ :=
      Program.reserves_record ok surveyed defined spells word known
    exact ⟨label, n, found, reserved, fun L x covered => Nat.lt_of_lt_of_le covered size⟩

/-! ## A string in memory -/

namespace Constant

/-- A string of five bytes at address 300000 on the stack, and the pointer 4096 above it. -/
def belowPointer : State := ((unstacked.push 5).push 300000).push 4096

theorem ready_belowPointer : Record.str.Ready belowPointer 4096 [300000, 5] where
  count := rfl
  words := by
    have first := (State.Grown.refl unstacked).push (w := 5) (by decide) ⟨rfl, rfl, rfl⟩
    have second := first.push (w := 300000) (by decide) ⟨rfl, rfl, rfl⟩
    exact (second.push (w := 4096) (by decide) ⟨rfl, rfl, rfl⟩).words
  fits := by decide
  apart x covered := by
    have low : (x - 4096).toNat < 16 := covered
    have rsp : (belowPointer.regs .rsp).toNat = 199992 := rfl
    rw [BitVec.toNat_sub] at low
    have address : (4096 : Word).toNat = 4096 := rfl
    omega

/-- The tokens of `memory m cstr ;`. -/
def addressMemory : Scanned :=
  ⟨[⟨.keyword .memory, "memory", ⟨1, 1, "t"⟩⟩, ⟨.word, "m", ⟨1, 8, "t"⟩⟩,
    ⟨.word, "cstr", ⟨1, 10, "t"⟩⟩, ⟨.keyword .semicolon, ";", ⟨1, 15, "t"⟩⟩], ⟨1, 16, "t"⟩⟩

/-- The words of a string go to memory and come back, and a memory of a record of one field has its
bytes. -/
theorem stores_and_loads_string :
    (∃ v, (alone ((Op.store (.record .str)).code ++ ((Op.number 4096).code
          ++ (Op.load (.record .str)).code))).Straight ⟨belowPointer, []⟩ ⟨v, []⟩
        ∧ v.mem.Lie (v.regs .rsp).toNat [300000, 5])
      ∧ ∃ p tables n, Program.ofTokens {} addressMemory = .ok (p, tables)
        ∧ .reserve "mem_0" .bytes n (some "m") ∈ p.lines tables {}
        ∧ ∀ (L : Layout) x, Record.cstr.Covers (L.symbol "mem_0") x
          → (x - L.symbol "mem_0").toNat < n := by
  constructor
  · have holds := holds_alone ((Op.store (.record .str)).code ++ ((Op.number 4096).code
      ++ (Op.load (.record .str)).code))
    obtain ⟨-, -, runs, -⟩ := Record.str.stores_and_loads
    obtain ⟨t, stores, keeps⟩ := runs _ belowPointer holds.left
    have rest := holds.right
    have pc : 0 + (Op.store (.record .str)).code.length = t.pc := stores.pc.symm
    rw [pc] at rest
    have room : 8 * ([4096] : List Word).length ≤ (t.regs .rsp).toNat := by
      rw [stores.rsp]
      decide
    have made : (Op.number 4096).words? .usual t.mem [] = some [4096] := rfl
    obtain ⟨u, number, next, pushed⟩ : Image.Leads _ t t [] _ [4096] :=
      (Op.leaving_words (.refl t) made room trivial).leads rest.left
    obtain ⟨v, load, -, left⟩ :=
      (keeps _ _ ready_belowPointer).load u [] pushed (next ▸ rest.right)
    exact ⟨v, ((stores.straight []).trans number).trans load, left.grown.words⟩
  · obtain ⟨-, -, -, memories⟩ := Record.cstr.stores_and_loads
    have spells : Plain.memory.Spells addressMemory.tokens ⟨.word, "m", ⟨1, 8, "t"⟩⟩
        [⟨.word, "cstr", ⟨1, 10, "t"⟩⟩] := ⟨⟨_, _, rfl, rfl, rfl⟩, rfl⟩
    obtain ⟨label, n, found, reserved, inside⟩ := memories {} addressMemory _ _ _ rfl rfl
      addressMemory.tokens (List.mem_cons_self ..) _ _ spells rfl rfl
    cases found
    exact ⟨_, _, n, rfl, reserved, inside⟩

/-- A record of three words. -/
def triple : Record := ⟨"Triple", [⟨"x", .number⟩, ⟨"y", .number⟩, ⟨"z", .number⟩]⟩

/-- **A record that overlaps the words it is stored from does not keep them**: behind a store to the
address where the pointer has been, the load leaves 3 in the place of 2. -/
theorem load_of_overlapping :
    let code := (Op.store (.record triple)).code ++ ((Op.number 200000).code
      ++ (Op.load (.record triple)).code)
    let below : State := ⟨fun r => if r = .rsp then 200032 else 0, none, fun _ => 0, 0⟩
    let s := (((below.push 1).push 2).push 3).push 200000
    s.mem.Lie (s.regs .rsp).toNat [200000, 3, 2, 1]
      ∧ ∃ t, (alone code).Straight ⟨s, []⟩ ⟨t, []⟩ ∧ t.pc = code.length
        ∧ (t.regs .rsp).toNat = (s.regs .rsp).toNat + 8
        ∧ t.mem.Lie (t.regs .rsp).toNat [3, 3, 1] ∧ ¬ t.mem.Lie (t.regs .rsp).toNat [3, 2, 1] := by
  intro code below s
  refine ⟨⟨by decide +kernel, by decide +kernel, by decide +kernel, by decide +kernel, trivial⟩, ?_⟩
  have before : (s.regs .rsp).toNat = 200000 := by decide +kernel
  obtain ⟨t, done, after, first, second, third⟩ : ∃ t, outcomes .usual code s = some t
      ∧ (t.regs .rsp).toNat = 200008 ∧ t.mem.load 200008 = 3 ∧ t.mem.load 200016 = 3
      ∧ t.mem.load 200024 = 1 :=
    ⟨_, rfl, by decide +kernel, by decide +kernel, by decide +kernel, by decide +kernel⟩
  refine ⟨t, (holds_alone code).straight done, outcomes_pc done, by rw [after, before], ?_, ?_⟩
  · rw [after]
    exact ⟨first, second, third, trivial⟩
  · rw [after]
    rintro ⟨-, two, -⟩
    have eq : (3 : Word) = 2 := second.symm.trans two
    exact absurd eq (by decide)

end Constant

end PinnedStack
