import PinnedStack.Proofs.Machine.Ends

/-!
# What instructions read from memory

* `Operand.bytes`, `Instr.reads` — the addresses of the bytes that an instruction reads.
* `Memory.Edit` — a change of memory that looks at no byte.
* `Instr.effect_alongside` — the effect of an instruction depends on the bytes that it reads and on
  no others.
* `Image.ReadsOnly` — the next instruction reads nothing but what it may. `Ends.reading`,
  `Ends.unread` — runs on which that is so.
-/

namespace PinnedStack.Asm

/-! ## The bytes that are read -/

/-- The addresses of bytes one after the other. -/
def bytesFrom (a : Word) (n : Nat) : List Word := (List.range n).map fun i => a + BitVec.ofNat 64 i

theorem mem_bytesFrom {a x : Word} {n : Nat} :
    x ∈ bytesFrom a n ↔ ∃ i < n, a + BitVec.ofNat 64 i = x := by
  simp [bytesFrom]

theorem forall_mem_byte {a : Word} {p : Word → Prop} (h : p a) : ∀ x ∈ bytesFrom a 1, p x := by
  simpa [bytesFrom] using h

/-- The bytes of an operand of some size, where it lies in memory. -/
def Operand.bytes (L : Layout) (s : State) (size : Nat) : Operand → List Word
  | mem m => bytesFrom (m.address L s) size
  | qword m => bytesFrom (m.address L s) size
  | byte m => bytesFrom (m.address L s) size
  | _ => []

/-- The size of two operands, in bytes. -/
def Operand.size (left right : Operand) : Nat := if left.isByte || right.isByte then 1 else 8

/-- The bytes that an instruction reads from memory; those of a system call are the kernel's. -/
def Instr.reads (L : Layout) (s : State) : Instr → List Word
  | push source => source.bytes L s 8
  | pop _ => bytesFrom (s.regs .rsp) 8
  | mov target source => source.bytes L s (target.size source)
  | movzx _ source => source.bytes L s 1
  | arith op target source =>
      if op.isShift then target.bytes L s 8 ++ source.bytes L s 1
      else target.bytes L s (target.size source) ++ source.bytes L s (target.size source)
  | unary _ target => target.bytes L s 8
  | cmp left right => left.bytes L s (left.size right) ++ right.bytes L s (left.size right)
  | test left right => left.bytes L s 8 ++ right.bytes L s 8
  | ret => bytesFrom (s.regs .rsp) 8
  | _ => []

/-! ## Effects depend on the bytes that are read -/

/-- A change of memory that looks at no byte: it sets a byte whatever memory is, or leaves it. -/
def Memory.Edit (f : Memory → Memory) : Prop :=
  ∀ m m' x, f m x = f m' x ∨ (f m x = m x ∧ f m' x = m' x)

namespace Memory

theorem edit_id : Edit id := fun _ _ _ => .inr ⟨rfl, rfl⟩

theorem edit_store (a w : Word) : Edit (·.store a w) := by
  intro m m' x
  by_cases within : (x - a).toNat < 8
  · exact .inl ((if_pos within).trans (if_pos within).symm)
  · exact .inr ⟨if_neg within, if_neg within⟩

theorem edit_storeByte (a : Word) (b : Byte) : Edit (·.storeByte a b) := by
  intro m m' x
  by_cases here : x = a
  · exact .inl ((if_pos here).trans (if_pos here).symm)
  · exact .inr ⟨if_neg here, if_neg here⟩

end Memory

section Congruence

variable {L : Layout} {s t : State} {m : Memory} {o : Operand} {x y : Option State}

/-- What comes of a state and of the same state with other memory: the same, but for the bytes that
are not written. -/
def Alongside (s : State) (m : Memory) (x y : Option State) : Prop :=
  ∀ t, x = some t → ∃ f, Memory.Edit f ∧ t.mem = f s.mem ∧ y = some { t with mem := f m }

namespace Alongside

theorem none : Alongside s m none y := nofun

theorem some (silent : t.mem = s.mem) : Alongside s m (some t) (some { t with mem := m }) := by
  rintro _ ⟨⟩
  exact ⟨id, Memory.edit_id, silent, rfl⟩

theorem bind {α : Type} {a a' : Option α} {g g' : α → Option State} (same : a' = a)
    (rest : ∀ v, Alongside s m (g v) (g' v)) : Alongside s m (a.bind g) (a'.bind g') := by
  rintro t done
  obtain ⟨v, rfl, done⟩ := Option.bind_eq_some_iff.1 done
  rw [same]
  exact rest v t done

theorem map {α : Type} {a a' : Option α} {g g' : α → State} (same : a' = a)
    (rest : ∀ v, Alongside s m (.some (g v)) (.some (g' v))) :
    Alongside s m (a.map g) (a'.map g') := by
  rintro t done
  obtain ⟨v, rfl, rfl⟩ := Option.map_eq_some_iff.1 done
  rw [same]
  exact rest v _ rfl

theorem forget (h : Alongside s m x y) : Alongside s m (x.map .forget) (y.map .forget) := by
  rintro t done
  obtain ⟨u, rfl, rfl⟩ := Option.map_eq_some_iff.1 done
  obtain ⟨f, edit, mem, rfl⟩ := h u rfl
  exact ⟨f, edit, mem, rfl⟩

theorem ite {c : Prop} [Decidable c] {x' y' : Option State} (yes : c → Alongside s m x y)
    (no : ¬ c → Alongside s m x' y') :
    Alongside s m (if c then x else x') (if c then y else y') := by
  by_cases h : c
  · rw [if_pos h, if_pos h]
    exact yes h
  · rw [if_neg h, if_neg h]
    exact no h

theorem stores {a w : Word} (regs : Reg → Word) :
    Alongside s m (.some { s with regs := regs, mem := s.mem.store a w })
      (.some { s with regs := regs, mem := m.store a w }) := by
  rintro _ ⟨⟩
  exact ⟨_, Memory.edit_store a w, rfl, rfl⟩

end Alongside

theorem Mem.address_congr (a : Mem) : a.address L { s with mem := m } = a.address L s := by
  cases a <;> rfl

namespace Operand

theorem read_congr (same : ∀ x ∈ o.bytes L s 8, m x = s.mem x) :
    o.read L { s with mem := m } = o.read L s := by
  have load : ∀ a : Mem, (∀ x ∈ bytesFrom (a.address L s) 8, m x = s.mem x) →
      m.load (a.address L { s with mem := m }) = s.mem.load (a.address L s) := by
    intro a same
    rw [a.address_congr]
    exact Memory.load_congr fun i lt => same _ (mem_bytesFrom.2 ⟨i, lt, rfl⟩)
  cases o with
  | mem a | qword a => exact congrArg some (load a same)
  | _ => rfl

theorem readByte_congr (same : ∀ x ∈ o.bytes L s 1, m x = s.mem x) :
    o.readByte L { s with mem := m } = o.readByte L s := by
  have load : ∀ a : Mem, (∀ x ∈ bytesFrom (a.address L s) 1, m x = s.mem x) →
      m (a.address L { s with mem := m }) = s.mem (a.address L s) := by
    intro a same
    rw [a.address_congr]
    exact same _ (mem_bytesFrom.2 ⟨0, Nat.one_pos, BitVec.add_zero _⟩)
  cases o with
  | mem a | byte a => exact congrArg some (load a same)
  | _ => rfl

theorem write_alongside (o : Operand) (w : Word) :
    Alongside s m (o.write L s w) (o.write L { s with mem := m } w) := by
  cases o with
  | reg r => exact .some rfl
  | mem a | qword a =>
    rw [write, write, a.address_congr]
    exact .stores s.regs
  | _ => exact .none

theorem writeByte_alongside (o : Operand) (b : Byte) :
    Alongside s m (o.writeByte L s b) (o.writeByte L { s with mem := m } b) := by
  cases o with
  | low r => exact .some rfl
  | mem a | byte a =>
    rw [writeByte, writeByte, a.address_congr]
    rintro _ ⟨⟩
    exact ⟨_, Memory.edit_storeByte (a.address L s) b, rfl, rfl⟩
  | _ => exact .none

end Operand

theorem State.top_congr (same : ∀ x ∈ bytesFrom (s.regs .rsp) 8, m x = s.mem x) :
    State.top { s with mem := m } = s.top :=
  Memory.load_congr fun i lt => same _ (mem_bytesFrom.2 ⟨i, lt, rfl⟩)

theorem State.div_eq {n : Nat} (number : (s.regs .rdx).toNat * 2 ^ 64 + (s.regs .rax).toNat = n)
    (d : Word) : s.div d = if d.toNat = 0 ∨ 2 ^ 64 ≤ n / d.toNat then none else
      some ((s.set .rax (BitVec.ofNat 64 (n / d.toNat))).set .rdx
        (BitVec.ofNat 64 (n % d.toNat))) := by
  subst number
  rfl

theorem State.div_alongside (d : Word) :
    Alongside s m (s.div d) (State.div { s with mem := m } d) := by
  obtain ⟨n, number⟩ : ∃ n, (s.regs .rdx).toNat * 2 ^ 64 + (s.regs .rax).toNat = n := ⟨_, rfl⟩
  rw [State.div_eq number, State.div_eq (s := { s with mem := m }) number]
  exact .ite (fun _ => .none) fun _ => .some rfl

theorem State.idiv_alongside (d : Word) :
    Alongside s m (s.idiv d) (State.idiv { s with mem := m } d) :=
  .ite (fun _ => .none) fun _ => .some rfl

theorem Unary.effect_alongside (op : Unary) (same : ∀ x ∈ o.bytes L s 8, m x = s.mem x) :
    Alongside s m (op.effect L s o) (op.effect L { s with mem := m } o) := by
  have read := Operand.read_congr same
  cases op with
  | neg | inc | dec => exact .bind read fun w => o.write_alongside _
  | div => exact .bind read fun w => State.div_alongside w
  | idiv => exact .bind read fun w => State.idiv_alongside w

/-- An instruction does the same on memories that agree on the bytes that it reads. -/
theorem Instr.effect_alongside {i : Instr} (same : ∀ x ∈ i.reads L s, m x = s.mem x) :
    Alongside s m (i.effect L s) (i.effect L { s with mem := m }) := by
  cases i with
  | push source => exact .map (Operand.read_congr same) fun w => .stores _
  | pop target =>
    have top := State.top_congr same
    rw [effect, effect, top]
    exact target.write_alongside (s := s.pop) _
  | mov target source =>
    rw [reads, Operand.size] at same
    refine .ite (fun byte => ?_) fun word => ?_
    · rw [if_pos byte] at same
      exact .bind (Operand.readByte_congr same) fun b => target.writeByte_alongside b
    · rw [if_neg word] at same
      exact .bind (Operand.read_congr same) fun w => target.write_alongside w
  | movzx target source =>
    exact .bind (Operand.readByte_congr same) fun b => target.write_alongside _
  | lea target source =>
    rw [effect, effect, source.address_congr]
    exact .some rfl
  | arith op target source =>
    rw [reads, Operand.size] at same
    refine .ite (fun shift => ?_) fun plain => .ite (fun byte => ?_) fun word => ?_
    · rw [if_pos shift] at same
      obtain ⟨left, right⟩ := List.forall_mem_append.1 same
      exact .bind (Operand.read_congr left) fun a => .bind (Operand.readByte_congr right) fun b =>
        (target.write_alongside _).forget
    · rw [if_neg plain, if_pos byte] at same
      obtain ⟨left, right⟩ := List.forall_mem_append.1 same
      exact .bind (Operand.readByte_congr left) fun a =>
        .bind (Operand.readByte_congr right) fun b =>
        (target.writeByte_alongside _).forget
    · rw [if_neg plain, if_neg word] at same
      obtain ⟨left, right⟩ := List.forall_mem_append.1 same
      exact .bind (Operand.read_congr left) fun a => .bind (Operand.read_congr right) fun b =>
        (target.write_alongside _).forget
  | unary op target => exact (op.effect_alongside same).forget
  | cmp left right =>
    rw [reads, Operand.size] at same
    refine .ite (fun byte => ?_) fun word => ?_
    · rw [if_pos byte] at same
      obtain ⟨first, second⟩ := List.forall_mem_append.1 same
      exact .bind (Operand.readByte_congr first) fun a =>
        .map (Operand.readByte_congr second) fun b => .some rfl
    · rw [if_neg word] at same
      obtain ⟨first, second⟩ := List.forall_mem_append.1 same
      exact .bind (Operand.read_congr first) fun a => .map (Operand.read_congr second) fun b =>
        .some rfl
  | test left right =>
    obtain ⟨first, second⟩ := List.forall_mem_append.1 same
    exact .bind (Operand.read_congr first) fun a => .map (Operand.read_congr second) fun b =>
      .some rfl
  | cqo => exact .some rfl
  | set | jump | jmp | call | ret | syscall => exact .none

end Congruence

/-! ## Runs that read little -/

/-- The next instruction reads no byte but those that it may read. -/
def Image.ReadsOnly (M : Image) (may : Instr → Word → Prop) (c : Config) : Prop :=
  ∀ i, M.code[c.state.pc]? = some i → ∀ x ∈ i.reads M.layout c.state, may i x

namespace Image

variable {M : Image} {may : Instr → Word → Prop} {way : Config → Prop}
  {last mid : List State → Config → Prop} {made : List State} {s t : State} {calls : List Frame}
  {c : Config} {i : Instr} {q : Nat}

theorem ReadsOnly.of_fetch (fetch : M.code[s.pc]? = some i)
    (all : ∀ x ∈ i.reads M.layout s, may i x) : M.ReadsOnly may ⟨s, calls⟩ := by
  intro j here
  obtain rfl := Option.some.inj (fetch.symm.trans here)
  exact all

theorem ReadsOnly.of_nil (fetch : M.code[s.pc]? = some i) (none : i.reads M.layout s = []) :
    M.ReadsOnly may ⟨s, calls⟩ := by
  refine .of_fetch fetch fun x mem => ?_
  rw [none] at mem
  cases mem

theorem Ends.bind (h : M.Ends way mid made c)
    (rest : ∀ made d, mid made d → M.Ends way last made d) : M.Ends way last made c := by
  induction h with
  | here done => exact rest _ _ done
  | next inside goes _ ih => exact .next inside goes ih

theorem Ends.jmp {l : String} (fetch : M.code[s.pc]? = some (.jmp l))
    (target : position? l M.lines = some q) (inside : way ⟨s, calls⟩)
    (rest : M.Ends way last made ⟨s.goto q, calls⟩) : M.Ends way last made ⟨s, calls⟩ :=
  .only inside (asked_eq_nil fetch (by simp)) (fun _ => step_jmp_iff fetch target) rest

/-- An instruction with a known outcome that reads what it may. -/
theorem Ends.reading (fetch : M.code[s.pc]? = some i) (done : i.outcome M.layout s = some t)
    (all : ∀ x ∈ i.reads M.layout s, may i x)
    (rest : M.Ends (M.ReadsOnly may) last made ⟨t.goto (s.pc + 1), calls⟩) :
    M.Ends (M.ReadsOnly may) last made ⟨s, calls⟩ :=
  .outcome fetch done (.of_fetch fetch all) rest

/-- An instruction that sets the flags, and a jump on them. -/
theorem Ends.deciding {cond : Cond} {l : String} {f : Flags} (fetch : M.code[s.pc]? = some i)
    (done : i.outcome M.layout s = some t) (all : ∀ x ∈ i.reads M.layout s, may i x)
    (known : t.flags = some f) (jumps : M.code[s.pc + 1]? = some (.jump cond l))
    (target : position? l M.lines = some q)
    (rest : M.Ends (M.ReadsOnly may) last made
      ⟨t.goto (if cond.holds f then q else s.pc + 2), calls⟩) :
    M.Ends (M.ReadsOnly may) last made ⟨s, calls⟩ := by
  refine .reading fetch done all ?_
  exact .jump (s := t.goto (s.pc + 1)) jumps target known (.of_nil jumps rfl) rest

/-- Instructions with known outcomes that read nothing from memory. -/
theorem Ends.unread {is : List Instr} (holds : M.Holds s.pc is)
    (done : Asm.outcomes M.layout is s = some t) (none : ∀ i ∈ is, ∀ u, i.reads M.layout u = [])
    (rest : M.Ends (M.ReadsOnly may) last made ⟨t, calls⟩) :
    M.Ends (M.ReadsOnly may) last made ⟨s, calls⟩ := by
  induction is generalizing s with
  | nil =>
    cases done
    exact rest
  | cons i is ih =>
    obtain ⟨u, one, others⟩ := Option.bind_eq_some_iff.1 done
    rw [← List.singleton_append] at holds
    have tail : M.Holds (s.pc + 1) is := holds.right
    refine .outcome holds.fetch one (.of_nil holds.fetch (none i (List.mem_cons_self ..) s)) ?_
    exact ih tail others fun j mem => none j (List.mem_cons_of_mem _ mem)

end Image

end PinnedStack.Asm
