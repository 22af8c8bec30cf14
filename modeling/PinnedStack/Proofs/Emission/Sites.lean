import PinnedStack.Proofs.Emission.Places
import PinnedStack.Proofs.Machine.Bodies

/-!
# What stands at a marked position

* `SteadyCode`, `Node.Steady`, `Func.Steady` — code that finds the words it takes, and whose branches
  and rounds leave as many words as each other.
* `Site` — the ways control can go on from a position with a mark.
* `Op.keeps_code` — the instructions of an operation are instructions of a body.
* `Scoped.sited` — every marked position of a well-scoped body is a `Site`.
-/

namespace PinnedStack

open Asm

/-! ## Steady levels -/

/-- Every instruction finds the words it needs. -/
def SteadyCode : List Instr → Nat → Prop
  | [], _ => True
  | i :: is, h => i.needs ≤ h ∧ SteadyCode is (i.levelAfter h)

mutual

/-- A node finds the words it takes, and all ways through it leave as many. -/
def Node.Steady (h : Nat) : Node → Prop
  | .op op _ => SteadyCode op.code h
  | .call call _ => call.contract.takes ≤ h
  | .ifTrue body _ _ => 1 ≤ h ∧ SteadyAll body (h - 1) ∧ levelOf body (h - 1) = h - 1
  | .ifFalse body _ _ => 1 ≤ h ∧ SteadyAll body (h - 1) ∧ levelOf body (h - 1) = h - 1
  | .ifElse yes no _ _ => 1 ≤ h ∧ SteadyAll yes (h - 1) ∧ SteadyAll no (h - 1)
      ∧ levelOf no (h - 1) = levelOf yes (h - 1)
  | .loop p condition body _ _ => p.ty.width ≤ h
      ∧ SteadyAll condition (h - p.ty.width + p.ty.width)
      ∧ levelOf condition (h - p.ty.width + p.ty.width) = h - p.ty.width + 1
      ∧ SteadyAll body (h - p.ty.width) ∧ levelOf body (h - p.ty.width) = h

/-- Nodes in order find the words they take. -/
def SteadyAll : List Node → Nat → Prop
  | [], _ => True
  | n :: ns, h => n.Steady h ∧ SteadyAll ns (n.after h)

end

/-- A function that keeps to its contract. -/
structure Func.Steady (f : Func) : Prop where
  body : SteadyAll f.body f.contract.takes
  after : f.after = f.contract.leaves

theorem steadyAll_append {xs ys : List Node} {h : Nat} :
    SteadyAll (xs ++ ys) h ↔ SteadyAll xs h ∧ SteadyAll ys (levelOf xs h) := by
  induction xs generalizing h with
  | nil => simp [SteadyAll, levelOf]
  | cons n xs ih => simp [SteadyAll, levelOf, ih, and_assoc]

theorem levelOf_append (xs ys : List Node) (h : Nat) :
    levelOf (xs ++ ys) h = levelOf ys (levelOf xs h) := by
  induction xs generalizing h with
  | nil => rfl
  | cons n xs ih => exact ih _

theorem markedOf_append (f : Func) (xs ys : List Node) (h : Nat) :
    markedOf f (xs ++ ys) h = markedOf f xs h ++ markedOf f ys (levelOf xs h) := by
  induction xs generalizing h with
  | nil => rfl
  | cons n xs ih => simp [markedOf, levelOf, ih]

/-! ## Sites -/

/-- How control goes on from a position of a function's body with a given level. What is said of
levels holds where the program is steady. -/
inductive Site (whole : List MarkedLine) (steady : Prop) (callees : List Call) (own : Nat → Prop)
    (f : Func) (ending : List Instr) : Nat → Nat → Prop where
  | plain {q h : Nat} {i : Instr} (fetch : (itemsOf whole)[q]? = some (i, some (f, h)))
      (keeps : i.Keeps own) (next : Leads whole steady (q + 1) f (i.levelAfter h))
      (enough : steady → i.needs ≤ h) : Site whole steady callees own f ending q h
  | routine {q h : Nat} {r : Routine}
      (fetch : (itemsOf whole)[q]? = some (.call r.name, some (f, h))) (known : r ∈ Routine.all)
      (next : Leads whole steady (q + 1) f h) : Site whole steady callees own f ending q h
  | jump {q t h : Nat} {c : Cond} {l : String}
      (fetch : (itemsOf whole)[q]? = some (.jump c l, some (f, h)))
      (target : position? l (whole.map Prod.fst) = some t) (taken : Leads whole steady t f h)
      (next : Leads whole steady (q + 1) f h) : Site whole steady callees own f ending q h
  | jmp {q t h : Nat} {l : String} (fetch : (itemsOf whole)[q]? = some (.jmp l, some (f, h)))
      (target : position? l (whole.map Prod.fst) = some t) (taken : Leads whole steady t f h) :
      Site whole steady callees own f ending q h
  | call {q h : Nat} {c : Call} (placed : Placed whole q (markFirst (f, h) (instrs c.code)))
      (known : c ∈ callees)
      (next : Leads whole steady (q + 5) f (h - c.contract.takes + c.contract.leaves))
      (enough : steady → c.contract.takes ≤ h) : Site whole steady callees own f ending q h
  | leave {q h : Nat} (placed : Placed whole q (markFirst (f, h) (instrs ending)))
      (last : h = f.after) : Site whole steady callees own f ending q h

/-- Something holds at every marked instruction of a part. -/
def Sited (P : Nat → Func → Nat → Prop) (q : Nat) (part : List MarkedLine) : Prop :=
  ∀ j i f h, (itemsOf part)[j]? = some (i, some (f, h)) → P (q + j) f h

section Sited

variable {P P' : Nat → Func → Nat → Prop} {q : Nat} {a b rest : List MarkedLine}

theorem Sited.mono (imp : ∀ q f h, P q f h → P' q f h) (s : Sited P q a) : Sited P' q a :=
  fun j i f h found => imp _ _ _ (s j i f h found)

theorem Sited.nil : Sited P q [] := by
  intro j i f h found
  simp at found

theorem Sited.append (ha : Sited P q a) (hb : Sited P (q + (itemsOf a).length) b) :
    Sited P q (a ++ b) := by
  intro j i f h found
  rw [itemsOf_append] at found
  by_cases lt : j < (itemsOf a).length
  · rw [List.getElem?_append_left lt] at found
    exact ha j i f h found
  · rw [List.getElem?_append_right (by omega)] at found
    have site := hb _ i f h found
    rwa [show q + (itemsOf a).length + (j - (itemsOf a).length) = q + j by omega] at site

theorem Sited.cons {f : Func} {h : Nat} {i : Instr} (site : P q f h)
    (tail : Sited P (q + 1) rest) : Sited P q ((.instr i, some (f, h)) :: rest) := by
  intro j k g l found
  cases j with
  | zero =>
    cases found
    exact site
  | succ j =>
    have site := tail j k g l found
    rwa [show q + 1 + j = q + (j + 1) by omega] at site

theorem Sited.skip {l : MarkedLine} (none : itemOf l = none) (tail : Sited P q rest) :
    Sited P q (l :: rest) := by
  intro j i f h found
  exact tail j i f h (by simpa [itemsOf, none] using found)

theorem Sited.unmarked (lines : List Line) : Sited P q (unmarked lines) := by
  intro j i f h found
  obtain ⟨line, mem, eq⟩ := List.mem_filterMap.1 (List.mem_of_getElem? found)
  obtain ⟨l, -, rfl⟩ := List.mem_map.1 mem
  cases l <;> cases eq

theorem Sited.markFirst {f : Func} {h : Nat} (code : List Instr) (site : P q f h) :
    Sited P q (markFirst (f, h) (instrs code)) := by
  cases code with
  | nil => exact .nil
  | cons i is => exact .cons site (.unmarked _)

end Sited

/-! ## Bodies -/

section Bodies

variable {whole : List MarkedLine} {steady : Prop} {callees : List Call} {own : Nat → Prop}
  {f : Func} {ending : List Instr} {q : Nat} {rest : List MarkedLine}

/-- Every marked instruction of a part is a site of one function. -/
abbrev SitedIn (whole : List MarkedLine) (steady : Prop) (callees : List Call) (own : Nat → Prop)
    (f : Func) (ending : List Instr) : Nat → List MarkedLine → Prop :=
  Sited fun q g h => g = f ∧ Site whole steady callees own f ending q h

/-- Instructions of a body in a row. -/
theorem SitedIn.code {is : List Instr} {h : Nat}
    (placed : Placed whole q (markCode f is h ++ rest)) (opens : Opens steady rest f (codeAfter is h))
    (keeps : ∀ i ∈ is, i.Keeps own ∨ ∃ r ∈ Routine.all, i = .call r.name)
    (enough : steady → SteadyCode is h) :
    SitedIn whole steady callees own f ending q (markCode f is h) := by
  induction is generalizing q h with
  | nil => exact .nil
  | cons i is ih =>
    have next := placed.next
    have opened : Opens steady (markCode f is (i.levelAfter h) ++ rest) f (i.levelAfter h) :=
      @Opens.code steady f _ rest is opens
    have tail := ih next opens (fun i mem => keeps i (List.mem_cons_of_mem _ mem))
      fun s => (enough s).2
    rcases keeps i (List.mem_cons_self ..) with keep | ⟨r, known, rfl⟩
    · exact .cons ⟨rfl, .plain placed.first keep (next.leads opened) fun s => (enough s).1⟩ tail
    · exact .cons ⟨rfl, .routine placed.first known (next.leads opened)⟩ tail

/-! ## Operations -/

theorem steadyCode_append {a b : List Instr} {h : Nat} :
    SteadyCode (a ++ b) h ↔ SteadyCode a h ∧ SteadyCode b (codeAfter a h) := by
  induction a generalizing h with
  | nil => simp [SteadyCode, codeAfter]
  | cons i a ih => simp [SteadyCode, codeAfter, ih, and_assoc]

theorem Pin.keeps_storeCode {p : Pin} (mine : ∀ slot ∈ p.slots, own slot) :
    ∀ i ∈ p.storeCode, i.Keeps own := by
  intro i mem
  obtain ⟨slot, here, rfl⟩ := List.mem_map.1 mem
  exact .popSlot (mine slot (by simpa using here))

theorem Pin.keeps_pushCode (p : Pin) : ∀ i ∈ p.pushCode, i.Keeps own := by
  intro i mem
  obtain ⟨slot, -, rfl⟩ := List.mem_map.1 mem
  exact .push

theorem keeps_pushNumber (value : Int64) : ∀ i ∈ pushNumber value, i.Keeps own := by
  unfold pushNumber
  split
  · simpa using Instr.Keeps.push
  · simpa using ⟨.quiet rfl, .push⟩

theorem keeps_pushAddress (label : String) : ∀ i ∈ pushAddress label, i.Keeps own := by
  simpa [pushAddress] using ⟨.quiet rfl, .push⟩

theorem Binary.keeps_code (op : Binary) : ∀ i ∈ op.code, i.Keeps own := by
  have quiet : ∀ i ∈ op.combine, i.quiet = true := by cases op <;> decide
  intro i mem
  simp only [Binary.code, List.mem_append, List.mem_cons, List.not_mem_nil, or_false] at mem
  rcases mem with ((rfl | rfl) | mem) | rfl
  · exact .popReg rfl
  · exact .popReg rfl
  · exact .quiet (quiet i mem)
  · exact .push

theorem Access.keeps_loadCode (access : Access) : ∀ i ∈ access.loadCode, i.Keeps own := by
  cases access with
  | word => simpa [Access.loadCode] using Instr.Keeps.push
  | byte => simpa [Access.loadCode] using ⟨.quiet rfl, .push⟩
  | record r =>
    intro i mem
    obtain ⟨field, -, rfl⟩ := List.mem_map.1 mem
    exact .push

theorem Access.keeps_storeCode (access : Access) : ∀ i ∈ access.storeCode, i.Keeps own := by
  cases access with
  | word => simpa [Access.storeCode] using ⟨.popReg rfl, .storeChosen⟩
  | byte => simpa [Access.storeCode] using ⟨.popReg rfl, .storeChosen⟩
  | record r =>
    intro i mem
    obtain ⟨field, -, rfl⟩ := List.mem_map.1 mem
    exact .popChosen rfl

theorem steadyCode_pops {targets : List Operand} {h : Nat} (enough : targets.length ≤ h) :
    SteadyCode (targets.map .pop) h := by
  induction targets generalizing h with
  | nil => trivial
  | cons t targets ih =>
    rw [List.length_cons] at enough
    refine ⟨by simp only [Instr.needs]; omega, ih ?_⟩
    simp only [Instr.levelAfter]
    omega

theorem Pin.steady_storeCode {p : Pin} {h : Nat} (enough : p.ty.width ≤ h) :
    SteadyCode p.storeCode h := by
  have pops : p.storeCode = (p.slots.reverse.map slotOperand).map .pop := by
    simp [Pin.storeCode, Function.comp_def]
  rw [pops]
  exact steadyCode_pops (by simpa using enough)

theorem Pin.steady_pushCode (p : Pin) (h : Nat) : SteadyCode p.pushCode h := by
  unfold Pin.pushCode
  induction p.slots generalizing h with
  | nil => trivial
  | cons slot slots ih => exact ⟨Nat.zero_le _, ih _⟩

/-- The instructions of an operation are instructions of a body that owns the pins in scope, or call
a routine. -/
theorem Op.keeps_code {scope : List Pin} {op : Op} (fits : op.Fits scope)
    (mine : ∀ p ∈ scope, ∀ slot ∈ p.slots, own slot) :
    ∀ i ∈ op.code, i.Keeps own ∨ ∃ r ∈ Routine.all, i = .call r.name := by
  have all : (∀ i ∈ op.code, i.Keeps own) →
      ∀ i ∈ op.code, i.Keeps own ∨ ∃ r ∈ Routine.all, i = .call r.name :=
    fun h i mem => .inl (h i mem)
  cases op with
  | number value => exact all (keeps_pushNumber value)
  | bool value => exact all (by simpa [Op.code] using Instr.Keeps.push)
  | string label length =>
    refine all fun i mem => ?_
    rcases List.mem_append.1 mem with mem | mem
    · exact keeps_pushNumber _ i mem
    · exact keeps_pushAddress _ i mem
  | cstring label => exact all (keeps_pushAddress label)
  | memory label ty => exact all (keeps_pushAddress label)
  | dup => exact all (by simpa [Op.code] using Instr.Keeps.push)
  | drop => exact all (by simpa [Op.code] using Instr.Keeps.drop)
  | swap => exact all (by simpa [Op.code, Instr.popReg, Instr.pushReg] using ⟨.popReg rfl, .popReg rfl, .push, .push⟩)
  | copySecond => exact all (by simpa [Op.code] using Instr.Keeps.push)
  | rot =>
    refine all ?_
    simpa [Op.code, Instr.popReg, Instr.pushReg] using
      ⟨.popReg rfl, .popReg rfl, .popReg rfl, .push, .push, .push⟩
  | print =>
    intro i mem
    rcases List.mem_cons.1 mem with rfl | mem
    · exact .inl (.popReg rfl)
    · exact .inr ⟨.printDecimal, by simp [Routine.all], List.mem_singleton.1 mem⟩
  | binary op => exact all op.keeps_code
  | not =>
    refine all ?_
    simpa [Op.code, Instr.popReg, Instr.pushReg] using
      ⟨.popReg rfl, .quiet rfl, .quiet rfl, .quiet rfl, .push⟩
  | streq =>
    intro i mem
    simp only [Op.code, List.mem_cons, List.not_mem_nil, or_false] at mem
    rcases mem with rfl | rfl | rfl | rfl | rfl | rfl
    · exact .inl (.popReg rfl)
    · exact .inl (.popReg rfl)
    · exact .inl (.popReg rfl)
    · exact .inl (.popReg rfl)
    · exact .inr ⟨.strEqual, by simp [Routine.all], rfl⟩
    · exact .inl .push
  | load access =>
    refine all fun i mem => ?_
    rcases List.mem_cons.1 mem with rfl | mem
    · exact .popReg rfl
    · exact access.keeps_loadCode i mem
  | store access =>
    refine all fun i mem => ?_
    rcases List.mem_cons.1 mem with rfl | mem
    · exact .popReg rfl
    · exact access.keeps_storeCode i mem
  | field r f =>
    refine all fun i mem => ?_
    simp only [Op.code] at mem
    split at mem
    · cases mem
    · exact List.mem_singleton.1 mem ▸ .addTop
  | syscall arguments =>
    refine all fun i mem => ?_
    simp only [Op.code, List.mem_append, List.mem_cons, List.not_mem_nil, or_false] at mem
    rcases mem with (rfl | mem) | rfl | rfl
    · exact .popReg rfl
    · obtain ⟨r, here, rfl⟩ := List.mem_map.1 mem
      have free : ∀ r ∈ syscallRegisters, (Operand.reg r).free = true := by decide
      exact .popReg (free r (List.mem_of_mem_take here))
    · exact .syscall
    · exact .push
  | cast kind => exact all (by simp [Op.code])
  | pin p => cases fits
  | unpin p => cases fits
  | pinned p => exact all p.keeps_pushCode
  | update p => exact all (Pin.keeps_storeCode (mine p (List.mem_of_find?_eq_some fits)))

/-! ## Nodes -/

/-- Operations on pins in a row. -/
theorem SitedIn.pins {ps : List Pin} {place : Place} {h : Nat} (make : Pin → Op)
    (placed : Placed whole q (markedOf f (ps.map fun p => .op (make p) place) h ++ rest))
    (opens : Opens steady rest f (levelOf (ps.map fun p => .op (make p) place) h))
    (keeps : ∀ p ∈ ps, ∀ i ∈ (make p).code, i.Keeps own)
    (enough : steady → SteadyAll (ps.map fun p => .op (make p) place) h) :
    SitedIn whole steady callees own f ending q
      (markedOf f (ps.map fun p => .op (make p) place) h) := by
  induction ps generalizing q h with
  | nil => exact .nil
  | cons p ps ih =>
    simp only [List.map_cons, markedOf, List.append_assoc] at placed ⊢
    refine .append (SitedIn.code placed (.nodes _ opens) ?_ fun s => (enough s).1) ?_
    · exact fun i mem => .inl (keeps p (List.mem_cons_self ..) i mem)
    · exact ih placed.right opens (fun p mem => keeps p (List.mem_cons_of_mem _ mem))
        fun s => (enough s).2

theorem keeps_testTop : ∀ i ∈ testTop, i.Keeps own := by
  simpa [testTop] using ⟨.popReg rfl, .quiet rfl⟩

/-- The start of a branch: what takes the condition off, and the jump behind it. -/
theorem SitedIn.branch {h t : Nat} {c : Cond} {l : String} {part : List MarkedLine}
    (placed : Placed whole q
      (markCode f testTop h ++ (.instr (.jump c l), some (f, h - 1)) :: rest))
    (target : position? l (whole.map Prod.fst) = some t)
    (taken : Leads whole steady t f (h - 1)) (opens : Opens steady rest f (h - 1))
    (enough : steady → 1 ≤ h) (tail : SitedIn whole steady callees own f ending (q + 3) part) :
    SitedIn whole steady callees own f ending q
      (markCode f testTop h ++ (.instr (.jump c l), some (f, h - 1)) :: part) := by
  refine .append (SitedIn.code placed (.instr _) (fun i mem => .inl (keeps_testTop i mem)) ?_) ?_
  · intro s
    exact ⟨enough s, Nat.zero_le _, trivial⟩
  · exact .cons ⟨rfl, .jump placed.right.first target taken (placed.right.next.leads opens)⟩ tail

/-- A branch with one arm. -/
theorem SitedIn.arm {h : Nat} {c : Cond} {l : String} {body : List Node}
    (labels : (labelsOf (whole.map Prod.fst)).Nodup)
    (placed : Placed whole q (markCode f testTop h ++ (.instr (.jump c l), some (f, h - 1)) ::
      (markedOf f body (h - 1) ++ (.label l, none) :: rest)))
    (opens : Opens steady rest f (h - 1))
    (enough : steady → 1 ≤ h ∧ levelOf body (h - 1) = h - 1)
    (inner : ∀ {q rest}, Placed whole q (markedOf f body (h - 1) ++ rest) →
      Opens steady rest f (levelOf body (h - 1)) →
      SitedIn whole steady callees own f ending q (markedOf f body (h - 1))) :
    SitedIn whole steady callees own f ending q (markCode f testTop h
      ++ (.instr (.jump c l), some (f, h - 1)) :: (markedOf f body (h - 1) ++ [(.label l, none)])) := by
  have last := placed.right.next.right
  have closed : Opens steady ((.label l, none) :: rest) f (levelOf body (h - 1)) :=
    (opens.skip rfl).congr fun s => (enough s).2.symm
  refine SitedIn.branch placed (last.label labels) ((last.skip rfl).leads opens)
    (.nodes body closed) (fun s => (enough s).1) (.append ?_ (.skip rfl .nil))
  exact inner placed.right.next closed

/-- A loop around a condition and a body of sites. -/
theorem SitedIn.loop {h n : Nat} {p : Pin} {condition body : List Node} {place : Place}
    (labels : (labelsOf (whole.map Prod.fst)).Nodup)
    (placed : Placed whole q ((Node.loop p condition body n place).marked f h ++ rest))
    (opens : Opens steady rest f (h - p.ty.width + p.ty.width))
    (mine : ∀ slot ∈ p.slots, own slot)
    (enough : steady → (Node.loop p condition body n place).Steady h)
    (test : ∀ {q rest}, Placed whole q (markedOf f condition (h - p.ty.width + p.ty.width) ++ rest) →
      Opens steady rest f (levelOf condition (h - p.ty.width + p.ty.width)) →
      SitedIn whole steady callees own f ending q
        (markedOf f condition (h - p.ty.width + p.ty.width)))
    (inner : ∀ {q rest}, Placed whole q (markedOf f body (h - p.ty.width) ++ rest) →
      Opens steady rest f (levelOf body (h - p.ty.width)) →
      SitedIn whole steady callees own f ending q (markedOf f body (h - p.ty.width))) :
    SitedIn whole steady callees own f ending q ((Node.loop p condition body n place).marked f h) := by
  simp only [Node.marked, List.cons_append, List.append_assoc] at placed ⊢
  -- The parts in their order, each with what comes behind it.
  have store := placed.skip rfl
  have again := store.right
  have push := again.skip rfl
  have testing := push.right
  have start := testing.right
  have round := start.right.next
  have update := round.right
  have back := update.right
  have out := back.next
  have last := out.skip rfl
  have pushes : ∀ k, codeAfter p.pushCode k = k + p.ty.width := codeAfter_pushCode p
  have stores : ∀ k, codeAfter p.storeCode k = k - p.ty.width := codeAfter_storeCode p
  have starts : Leads whole steady _ f (h - p.ty.width) :=
    push.leads (.code (by rw [pushes]; exact .nodes condition (.instr _)))
  have ends : Leads whole steady _ f (h - p.ty.width) := last.leads (.code (by rwa [pushes]))
  have keep : ∀ {is : List Instr}, (∀ i ∈ is, i.Keeps own) →
      ∀ i ∈ is, i.Keeps own ∨ ∃ r ∈ Routine.all, i = .call r.name :=
    fun keeps i mem => .inl (keeps i mem)
  refine .skip rfl (.append ?store (.skip rfl (.append ?push (.append ?test ?round))))
  case store =>
    refine SitedIn.code store (.skip ?_ rfl) (keep (Pin.keeps_storeCode mine)) fun s => ?_
    · rw [stores]
      exact .code (by rw [pushes]; exact .nodes condition (.instr _))
    · exact Pin.steady_storeCode (enough s).1
  case push =>
    refine SitedIn.code push ?_ (keep p.keeps_pushCode) fun _ => p.steady_pushCode _
    rw [pushes]
    exact .nodes condition (.instr _)
  case test => exact test testing (.instr _)
  case round =>
    have closed : ∀ {lines}, Opens steady ((.instr (.jmp (loopLabel n)),
        some (f, levelOf body (h - p.ty.width) - p.ty.width)) :: lines) f
          (codeAfter p.storeCode (levelOf body (h - p.ty.width))) :=
      (Opens.instr _).congr fun _ => (stores _).symm
    have level : steady → h - p.ty.width
        = levelOf condition (h - p.ty.width + p.ty.width) - 1 := by
      intro s
      rw [(enough s).2.2.1, Nat.add_sub_cancel]
    refine SitedIn.branch start (out.label labels) (ends.congr level)
      ((Opens.nodes body (.code closed)).congr level) (fun s => ?_)
      (.append (inner round (.code closed)) (.append ?_ (.cons ⟨rfl, ?_⟩ (.skip rfl ?_))))
    · rw [(enough s).2.2.1]
      exact Nat.le_add_left ..
    · refine SitedIn.code update closed (keep (Pin.keeps_storeCode mine)) fun s => ?_
      rw [(enough s).2.2.2.2]
      exact Pin.steady_storeCode (enough s).1
    · refine .jmp back.first (again.label labels) (starts.congr fun s => ?_)
      rw [(enough s).2.2.2.2]
    · refine SitedIn.code last ?_ (keep p.keeps_pushCode) fun _ => p.steady_pushCode _
      rwa [pushes]

/-- **Every marked position of a well-scoped body is a site.** -/
theorem Scoped.sited {scope : List Pin} {first stop : Nat} {nodes : List Node} {l : Nat}
    (h : Scoped callees scope first stop nodes)
    (labels : (labelsOf (whole.map Prod.fst)).Nodup)
    (placed : Placed whole q (markedOf f nodes l ++ rest))
    (opens : Opens steady rest f (levelOf nodes l))
    (inScope : ∀ p ∈ scope, ∀ slot ∈ p.slots, own slot)
    (inRange : ∀ slot, first ≤ slot → slot < stop → own slot)
    (enough : steady → SteadyAll nodes l) :
    SitedIn whole steady callees own f ending q (markedOf f nodes l) := by
  induction h generalizing q l rest with
  | nil => exact .nil
  | append left right ihl ihr =>
    rw [markedOf_append, List.append_assoc] at placed
    rw [levelOf_append] at opens
    have both := fun s => steadyAll_append.1 (enough s)
    rw [markedOf_append]
    refine .append (ihl placed (.nodes _ opens) inScope ?_ fun s => (both s).1)
      (ihr placed.right opens inScope ?_ fun s => (both s).2)
    · exact fun slot low high => inRange slot low (Nat.lt_of_lt_of_le high right.le)
    · exact fun slot low high => inRange slot (Nat.le_trans left.le low) high
  | op fits =>
    simp only [markedOf, Node.marked, List.append_nil] at placed ⊢
    exact SitedIn.code placed opens (Op.keeps_code fits inScope) fun s => (enough s).1
  | call known =>
    simp only [markedOf, Node.marked, List.append_nil, List.cons_append] at placed ⊢
    refine .skip rfl (.markFirst _ ⟨rfl, ?_⟩)
    exact .call (placed.skip rfl).left known ((placed.skip rfl).right.leads opens)
      fun s => (enough s).1
  | ifTrue inner ih =>
    simp only [markedOf, Node.marked, List.append_nil, List.cons_append, List.nil_append,
      List.append_assoc] at placed ⊢
    refine .skip rfl (SitedIn.arm labels (placed.skip rfl) opens ?_ fun placed opens => ?_)
    · exact fun s => ⟨(enough s).1.1, (enough s).1.2.2⟩
    · exact ih placed opens inScope inRange fun s => (enough s).1.2.1
  | ifFalse inner ih =>
    simp only [markedOf, Node.marked, List.append_nil, List.cons_append, List.nil_append,
      List.append_assoc] at placed ⊢
    refine .skip rfl (SitedIn.arm labels (placed.skip rfl) opens ?_ fun placed opens => ?_)
    · exact fun s => ⟨(enough s).1.1, (enough s).1.2.2⟩
    · exact ih placed opens inScope inRange fun s => (enough s).1.2.1
  | @ifElse scope first middle stop yes no n place left right ihl ihr =>
    simp only [markedOf, Node.marked, List.append_nil, List.cons_append, List.nil_append,
      List.append_assoc] at placed ⊢
    have start := placed.skip rfl
    have arm := start.right.next
    have leave := arm.right
    have other := leave.next
    have otherArm := other.skip rfl
    have last := otherArm.right
    have closed : Opens steady ((.label (endifLabel n), none) :: rest) f (levelOf no (l - 1)) :=
      (opens.skip rfl).congr fun s => (enough s).1.2.2.2.symm
    refine .skip rfl (SitedIn.branch start (other.label labels)
      (otherArm.leads (.nodes no closed)) (.nodes yes (.instr _)) (fun s => (enough s).1.1)
      (.append ?_ (.cons ⟨rfl, ?_⟩ (.skip rfl (.append ?_ (.skip rfl .nil))))))
    · refine ihl arm (.instr _) inScope ?_ fun s => (enough s).1.2.1
      exact fun slot low high => inRange slot low (Nat.lt_of_lt_of_le high right.le)
    · exact .jmp leave.first (last.label labels) ((last.skip rfl).leads opens)
    · refine ihr otherArm closed inScope ?_ fun s => (enough s).1.2.2.1
      exact fun slot low high => inRange slot (Nat.le_trans left.le low) high
  | @loop scope middle stop p condition body n place sound left right ihl ihr =>
    rw [markedOf, markedOf, List.append_nil] at placed ⊢
    have mine : ∀ slot ∈ p.slots, own slot := by
      intro slot mem
      obtain ⟨low, high⟩ := Pin.mem_slots.1 mem
      exact inRange slot low (Nat.lt_of_lt_of_le high (Nat.le_trans left.le right.le))
    have within : ∀ q ∈ p :: scope, ∀ slot ∈ q.slots, own slot := by
      intro q mem
      rcases List.mem_cons.1 mem with rfl | mem
      · exact mine
      · exact inScope q mem
    refine SitedIn.loop labels placed opens mine (fun s => (enough s).1) ?_ ?_
    · intro q rest placed opens
      refine ihl placed opens within (fun slot low high => ?_) fun s => (enough s).1.2.1
      exact inRange slot (Nat.le_trans (Nat.le_add_right ..) low) (Nat.lt_of_lt_of_le high right.le)
    · intro q rest placed opens
      refine ihr placed opens within (fun slot low high => ?_) fun s => (enough s).1.2.2.2.1
      exact inRange slot (Nat.le_trans (Nat.le_add_right ..) (Nat.le_trans left.le low)) high
  | @bind scope first middle stop pins body place fits laid inner ih =>
    rw [List.append_assoc] at placed opens enough ⊢
    rw [markedOf_append, markedOf_append, List.append_assoc, List.append_assoc] at placed
    rw [levelOf_append, levelOf_append] at opens
    have parts := fun s => steadyAll_append.1 (enough s)
    have inside := fun s => steadyAll_append.1 (parts s).2
    have mine : ∀ p ∈ pins, ∀ slot ∈ p.slots, own slot := by
      intro p mem slot here
      obtain ⟨low, high⟩ := laid.range p mem
      obtain ⟨le, lt⟩ := Pin.mem_slots.1 here
      exact inRange slot (Nat.le_trans low le)
        (Nat.lt_of_lt_of_le lt (Nat.le_trans high inner.le))
    rw [markedOf_append, markedOf_append]
    refine .append ?pin (.append ?body ?unpin)
    case pin =>
      refine SitedIn.pins .pin placed (.nodes _ (.nodes _ opens)) (fun p mem => ?_)
        fun s => (parts s).1
      exact Pin.keeps_storeCode (mine p (List.mem_reverse.1 mem))
    case body =>
      refine ih placed.right (.nodes _ opens) (fun p mem => ?_) (fun slot low high => ?_)
        fun s => (inside s).1
      · rcases List.mem_append.1 mem with mem | mem
        · exact mine p (List.mem_reverse.1 mem)
        · exact inScope p mem
      · exact inRange slot (Nat.le_trans laid.le low) high
    case unpin =>
      refine SitedIn.pins .unpin ?_ opens (fun p mem i here => ?_) fun s => (inside s).2
      · exact placed.right.right
      · cases here

/-- The marked lines of a node stand where the node stands in its body, and the body goes on behind
them. -/
theorem Occurs.placed {n : Node} {h : Nat} {nodes : List Node} {l k : Nat}
    (occurs : Occurs n h nodes l k) (placed : Placed whole q (markedOf f nodes l ++ rest))
    (opens : Opens steady rest f (levelOf nodes l)) (enough : steady → SteadyAll nodes l) :
    ∃ more, Placed whole (q + k) (n.marked f h ++ more) ∧ Opens steady more f (n.after h)
      ∧ (steady → n.Steady h) := by
  induction occurs generalizing q rest with
  | here =>
    rw [markedOf, List.append_assoc] at placed
    exact ⟨_, placed, .nodes _ opens, fun s => (enough s).1⟩
  | later _ ih =>
    rw [markedOf, List.append_assoc] at placed
    have after := placed.right
    rw [length_itemsOf_marked] at after
    obtain ⟨more, found, others⟩ := ih after opens fun s => (enough s).2
    exact ⟨more, found.move (by omega), others⟩
  | @ifTrue body nodes _ l _ _ inner ih =>
    simp only [markedOf, Node.marked, List.cons_append, List.append_assoc] at placed
    have within := (placed.skip rfl).right.next
    rw [length_itemsOf_markCode] at within
    have behind : Opens steady (markedOf f nodes (l - 1) ++ rest) f (l - 1) := .nodes nodes opens
    obtain ⟨more, found, others⟩ := ih within ((behind.skip rfl).congr
      fun s => (enough s).1.2.2.symm) fun s => (enough s).1.2.1
    exact ⟨more, found.move (by rw [length_testTop]; omega), others⟩
  | @ifFalse body nodes _ l _ _ inner ih =>
    simp only [markedOf, Node.marked, List.cons_append, List.append_assoc] at placed
    have within := (placed.skip rfl).right.next
    rw [length_itemsOf_markCode] at within
    have behind : Opens steady (markedOf f nodes (l - 1) ++ rest) f (l - 1) := .nodes nodes opens
    obtain ⟨more, found, others⟩ := ih within ((behind.skip rfl).congr
      fun s => (enough s).1.2.2.symm) fun s => (enough s).1.2.1
    exact ⟨more, found.move (by rw [length_testTop]; omega), others⟩
  | yes inner ih =>
    simp only [markedOf, Node.marked, List.cons_append, List.append_assoc] at placed
    have within := (placed.skip rfl).right.next
    rw [length_itemsOf_markCode] at within
    obtain ⟨more, found, others⟩ := ih within (.instr _) fun s => (enough s).1.2.1
    exact ⟨more, found.move (by rw [length_testTop]; omega), others⟩
  | @no yes no nodes _ l _ _ inner ih =>
    simp only [markedOf, Node.marked, List.cons_append, List.append_assoc] at placed
    have within := ((placed.skip rfl).right.next.right.next).skip rfl
    rw [length_itemsOf_markCode, length_itemsOf_markedOf] at within
    have behind : Opens steady (markedOf f nodes (levelOf yes (l - 1)) ++ rest) f
        (levelOf yes (l - 1)) := .nodes nodes opens
    obtain ⟨more, found, others⟩ := ih within ((behind.skip rfl).congr
      fun s => (enough s).1.2.2.2.symm) fun s => (enough s).1.2.2.1
    exact ⟨more, found.move (by rw [length_testTop]; omega), others⟩
  | condition inner ih =>
    simp only [markedOf, Node.marked, List.cons_append, List.append_assoc] at placed
    have within := ((placed.skip rfl).right.skip rfl).right
    rw [length_itemsOf_markCode, length_itemsOf_markCode] at within
    obtain ⟨more, found, others⟩ := ih within (.instr _) fun s => (enough s).1.2.1
    exact ⟨more, found.move (by rw [Pin.length_storeCode, Pin.length_pushCode]; omega), others⟩
  | @body p _ body _ _ _ _ _ inner ih =>
    simp only [markedOf, Node.marked, List.cons_append, List.append_assoc] at placed
    have within := ((placed.skip rfl).right.skip rfl).right.right.right.next
    rw [length_itemsOf_markCode, length_itemsOf_markCode, length_itemsOf_markedOf,
      length_itemsOf_markCode] at within
    obtain ⟨more, found, others⟩ := ih within
      (.code ((Opens.instr _).congr fun _ => (codeAfter_storeCode p _).symm))
      fun s => (enough s).1.2.2.2.1
    refine ⟨more, found.move ?_, others⟩
    rw [Pin.length_storeCode, Pin.length_pushCode, length_testTop]
    omega

end Bodies

end PinnedStack
