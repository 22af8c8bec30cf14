import PinnedStack.Proofs.Machine.Calls
import PinnedStack.Proofs.Machine.Routines

/-!
# Functions at work

* `Loaded` — a program that a text spells, in memory.
* `Waiting` — the functions that wait for the one at work. Each has what it keeps on the return stack
  as it was when it called.
* `Working` — a configuration where some function is at work.
* `Working.step`, `Working.run` — whatever runs, some function is at work at every mark.
-/

namespace PinnedStack

open Asm

/-- A program that a text spells, in memory. -/
structure Loaded (M : Image) (p : Program) (tables : Tables) (limits : Limits) : Prop where
  spelled : ∃ text, Program.ofTokens limits text = .ok (p, tables)
  lines : M.lines = p.lines tables limits
  fits : M.layout.Fits limits M.code.length

section Working

variable (M : Image) (p : Program) (whole : List MarkedLine) (first : Func) (top : Nat)

/-- A function is at work with the pointer of the return stack at `cell`, on the part of the data
stack below `base`, and the recorded calls lead to it from the first function, whose part is below
`top`. -/
inductive Waiting : Func → Nat → Nat → List Asm.Frame → Memory → Prop where
  | first {cell : Nat} {m : Memory} : Waiting first cell top [] m
  | call {f g : Func} {fr : Asm.Frame} {calls : List Asm.Frame} {cell h base : Nat} {m : Memory}
      (callee : f ∈ p.functions) (kept : Kept M.layout f fr.state m cell)
      (pointed : fr.state.mem.Pointed M.layout (fr.state.regs .rsp).toNat)
      (tail : Placed whole (fr.state.pc + 1)
        (unmarked (instrs [.mov returnPointer (.reg .rsp), .movReg .rsp .rax])))
      (next : Leads whole p.Steady (fr.state.pc + 3) g
        (h - f.contract.takes + f.contract.leaves))
      (level : p.Steady → f.contract.takes ≤ h ∧ (fr.state.regs .rax).toNat + 8 * h = base)
      (outer : Waiting g (fr.state.regs .rsp).toNat base calls fr.state.mem) :
      Waiting f cell ((fr.state.regs .rax).toNat + 8 * f.contract.takes) (fr :: calls) m

/-- A function is at work in front of a marked instruction. -/
structure Working (c : Config) (f : Func) (h cell base : Nat) : Prop where
  cut : Cut whole c.state.pc f h
  r15 : c.state.regs .r15 = BitVec.ofNat 64 M.layout.pins
  data : M.layout.dataStack ≤ (c.state.regs .rsp).toNat
  pointed : c.state.mem.Pointed M.layout cell
  level : p.Steady → (c.state.regs .rsp).toNat + 8 * h = base
  waiting : Waiting M p whole first top f cell base c.calls c.state.mem

/-- Some function is at work. -/
def AtWork (c : Config) : Prop := ∃ f h cell base, Working M p whole first top c f h cell base

end Working

section Program

variable {M : Image} {p : Program} {tables : Tables} {limits : Limits} {first : Func} {top : Nat}
  {f : Func} {h cell base n : Nat} {s t : State} {calls : List Asm.Frame} {c d : Config}

theorem Loaded.marked (loaded : Loaded M p tables limits) :
    M.lines = (p.marked tables limits).map Prod.fst := by
  rw [loaded.lines, p.marked_lines]

theorem Loaded.stands (loaded : Loaded M p tables limits) (mem : f ∈ p.bodies) :
    ∃ e, Stands (p.marked tables limits) f e := by
  obtain ⟨text, ok⟩ := loaded.spelled
  exact Program.stands ok mem

theorem Loaded.holds (loaded : Loaded M p tables limits) (mem : f ∈ p.functions) :
    ∀ slot ∈ f.slots, M.layout.Holds slot := by
  obtain ⟨text, ok⟩ := loaded.spelled
  have room := ((Program.formed_of_ofTokens ok).functions f mem).room
  intro slot here
  rw [Func.slots, List.mem_range'_1] at here
  exact loaded.fits.holds (by omega)

theorem Loaded.inner (loaded : Loaded M p tables limits) (mem : f ∈ p.functions) :
    f.isMain = false := by
  obtain ⟨text, ok⟩ := loaded.spelled
  exact Func.isMain_of_mem (Program.formed_of_ofTokens ok) mem

/-- What waits stays in place where the words above `cell` and the pins of other functions do. -/
theorem Waiting.congr {whole : List MarkedLine} (fits : M.layout.Fits limits M.code.length)
    {m m' : Memory} (waiting : Waiting M p whole first top f cell base calls m)
    (agrees : f ∈ p.functions → Memory.Agrees M.layout (· ∈ f.slots) cell m m') :
    Waiting M p whole first top f cell base calls m' := by
  cases waiting with
  | first => exact .first
  | call callee kept pointed tail next level outer =>
    exact .call callee (kept.congr fits pointed.high (agrees callee)) pointed tail next level outer

/-- A function at work goes on where its state is carried. -/
theorem Working.carry (loaded : Loaded M p tables limits)
    (w : Working M p (p.marked tables limits) first top ⟨s, calls⟩ f h cell base)
    (carried : s.Carried M.layout (f.Owns limits.pinCapacity) t) {j : Nat}
    (leads : Leads (p.marked tables limits) p.Steady t.pc f j)
    (level : p.Steady → (t.regs .rsp).toNat + 8 * j = base) :
    AtWork M p (p.marked tables limits) first top ⟨t, calls⟩ := by
  have bounds := loaded.fits.returnPointer_lt
  have low := w.pointed.low
  have high := w.pointed.high
  obtain ⟨k, cut, same⟩ := leads
  refine ⟨f, k, cell, base, cut, carried.r15.trans w.r15, carried.data, ?_, fun steady => ?_, ?_⟩
  · exact w.pointed.congr loaded.fits fun x ge less => carried.stack x ge (by omega)
  · rw [same steady]
    exact level steady
  · refine w.waiting.congr loaded.fits fun mem => ⟨fun x ge less => ?_, fun slot there other => ?_⟩
    · exact carried.stack x (by omega) less
    · exact carried.pins slot there fun own => other (own.2 (loaded.inner mem))

/-! ## Into a function -/

theorem calling_rsp {L : Layout} {cell : Nat} (pointed : s.mem.Pointed L cell)
    (fits : L.Fits limits n) : ((s.calling L).regs .rsp).toNat = cell := by
  have bounds := fits.returnPointer_lt
  have high := pointed.high
  have word : (s.calling L).regs .rsp = BitVec.ofNat 64 cell := pointed.word
  rw [word, BitVec.toNat_ofNat, Nat.mod_eq_of_lt (by omega)]

/-- Where the slots of a function were saved on the return stack, there was room for them. -/
theorem Loaded.room (loaded : Loaded M p tables limits) (mem : f ∈ p.functions) {e : Nat}
    (low : M.layout.returnStack ≤ (s.regs .rsp).toNat)
    (high : (s.regs .rsp).toNat ≤ M.layout.returnEnd)
    (on : (((s.push (M.layout.address (s.pc + 1))).goto e).saved M.layout f.slots).OnStack M.layout) :
    M.layout.returnStack + 8 * (f.slots.length + 1) ≤ (s.regs .rsp).toNat := by
  obtain ⟨text, ok⟩ := loaded.spelled
  have gap := loaded.fits.gap
  have pins := loaded.fits.pins_size
  have pointer := loaded.fits.pointer_size
  have bottom := loaded.fits.low
  have few : f.slots.length ≤ limits.pinCapacity := by
    have room := ((Program.formed_of_ofTokens ok).functions f mem).room
    simp only [Func.slots, List.length_range']
    omega
  have pushed : ((s.push (M.layout.address (s.pc + 1))).goto e).regs .rsp
      = s.regs .rsp - BitVec.ofNat 64 8 := rfl
  have one : (s.regs .rsp - BitVec.ofNat 64 8).toNat = (s.regs .rsp).toNat - 8 :=
    toNat_sub_ofNat (by omega)
  have rsp : ((((s.push (M.layout.address (s.pc + 1))).goto e).saved M.layout f.slots).regs
      .rsp).toNat = (s.regs .rsp).toNat - 8 - 8 * f.slots.length := by
    rw [State.saved_rsp, pushed, toNat_sub_ofNat (by omega), one]
  unfold State.OnStack at on
  omega

/-- At the start of its body a function is at work. -/
theorem Loaded.working_entered (loaded : Loaded M p tables limits) (mem : f ∈ p.functions) {e : Nat}
    (stands : Stands (p.marked tables limits) f e) {g : Func} {m : Mark}
    (placed : Placed (p.marked tables limits) s.pc (markFirst m (instrs f.call.code)))
    (r15 : s.regs .r15 = BitVec.ofNat 64 M.layout.pins)
    (data : M.layout.dataStack ≤ (s.regs .rsp).toNat) (pointed : s.mem.Pointed M.layout cell)
    (room : M.layout.returnStack + 8 * (f.slots.length + 1) ≤ cell)
    (next : Leads (p.marked tables limits) p.Steady (s.pc + 5) g
      (h - f.contract.takes + f.contract.leaves))
    (level : p.Steady → f.contract.takes ≤ h ∧ (s.regs .rsp).toNat + 8 * h = base)
    (waiting : Waiting M p (p.marked tables limits) first top g cell base calls s.mem) :
    AtWork M p (p.marked tables limits) first top
      ⟨(s.calling M.layout).entered M.layout f e, ⟨f.label, s.calling M.layout⟩ :: calls⟩ := by
  have rsp := calling_rsp pointed loaded.fits
  obtain ⟨kept, turned, -⟩ := State.entered_kept loaded.fits (s := s.calling M.layout) (e := e)
    (loaded.holds mem) (by omega) (by rw [rsp]; exact pointed.high)
  obtain ⟨rest, body, opens⟩ := stands.body
  have front : f.front.length = f.slots.length + 2 := by
    simp [Func.front, loaded.inner mem, Func.entering]
  have start : Leads (p.marked tables limits) p.Steady
      ((s.calling M.layout).entered M.layout f e).pc f f.contract.takes := by
    rw [State.entered_pc, Nat.add_assoc, ← front]
    exact body.leads (.nodes _ (opens _))
  obtain ⟨k, cut, same⟩ := start
  have entry : ((s.calling M.layout).entered M.layout f e).regs .rsp = s.regs .rsp :=
    State.entered_rsp ..
  let fr : Asm.Frame := ⟨f.label, s.calling M.layout⟩
  have inner : Waiting M p (p.marked tables limits) first top f _
      ((fr.state.regs .rax).toNat + 8 * f.contract.takes) (fr :: calls)
      ((s.calling M.layout).entered M.layout f e).mem :=
    .call mem kept (rsp ▸ pointed) placed.next.next.next next level (rsp ▸ waiting)
  refine ⟨f, k, _, _, cut, (State.entered_r15 ..).trans r15, entry ▸ data, turned, fun steady => ?_,
    inner⟩
  rw [same steady, entry]
  rfl

/-- The code of a call leads to the body of the function. -/
theorem Working.step_call (loaded : Loaded M p tables limits) (mem : f ∈ p.functions) {g : Func}
    (w : Working M p (p.marked tables limits) first top ⟨s, calls⟩ g h cell base)
    (placed : Placed (p.marked tables limits) s.pc (markFirst (g, h) (instrs f.call.code)))
    (next : Leads (p.marked tables limits) p.Steady (s.pc + 5) g
      (h - f.contract.takes + f.contract.leaves))
    (enough : p.Steady → f.contract.takes ≤ h) (sound : M.Sound ⟨s, calls⟩ d) :
    M.Reaches (p.marked tables limits) (AtWork M p (p.marked tables limits) first top) n d := by
  obtain ⟨e, stands⟩ := loaded.stands (List.mem_append_left _ mem)
  have lines := loaded.marked
  have code : Placed (p.marked tables limits) s.pc
      (markFirst (g, h) (instrs f.call.code) ++ []) := by rwa [List.append_nil]
  have inner := loaded.inner mem
  have rsp := calling_rsp w.pointed loaded.fits
  obtain rfl := (Image.step_call_code lines code).1 sound.step
  refine (Image.Forced.call lines code stands inner rfl w.r15).reaches sound.onStack fun on => ?_
  refine (Image.Forced.enter lines stands inner (State.saved_pc ..)).reaches on fun _ => .here ?_
  have room := loaded.room mem (rsp ▸ w.pointed.low) (rsp ▸ w.pointed.high) on
  exact loaded.working_entered mem stands placed w.r15 w.data w.pointed (rsp ▸ room) next
    (fun steady => ⟨enough steady, w.level steady⟩) w.waiting

/-! ## Back to the caller -/

/-- The code behind a body leads back to the caller, to which it gives back what was kept. -/
theorem Loaded.back (loaded : Loaded M p tables limits) (mem : f ∈ p.functions) {fr : Asm.Frame}
    {m : Mark} (placed : Placed (p.marked tables limits) s.pc (markFirst m (instrs f.leaving)))
    (r15 : s.regs .r15 = BitVec.ofNat 64 M.layout.pins) (pointed : s.mem.Pointed M.layout cell)
    (kept : Kept M.layout f fr.state s.mem cell)
    (above : fr.state.mem.Pointed M.layout (fr.state.regs .rsp).toNat)
    (tail : Placed (p.marked tables limits) (fr.state.pc + 1)
      (unmarked (instrs [.mov returnPointer (.reg .rsp), .movReg .rsp .rax])))
    (calls : List Asm.Frame) :
    M.Forced (p.marked tables limits) ⟨(s.set .rax (s.regs .rsp)).goto (s.pc + 1), fr :: calls⟩
        ⟨s.left M.layout f (fr.state.pc + 1), calls⟩
      ∧ (s.left M.layout f (fr.state.pc + 1)).mem.Pointed M.layout (fr.state.regs .rsp).toNat
      ∧ Memory.Agrees M.layout (fun _ => False) (fr.state.regs .rsp).toNat fr.state.mem
        (s.left M.layout f (fr.state.pc + 1)).mem
      ∧ Memory.Elsewhere M.layout s.mem (s.left M.layout f (fr.state.pc + 1)).mem := by
  obtain ⟨back, turned, agrees, others⟩ :=
    kept.left loaded.fits pointed above.high (loaded.holds mem)
  have ahead : Placed (p.marked tables limits) (fr.state.pc + 1)
      (unmarked (instrs [.mov returnPointer (.reg .rsp), .movReg .rsp .rax]) ++ []) := by
    rwa [List.append_nil]
  exact ⟨Image.Forced.leave loaded.marked placed r15 loaded.fits ahead back fr.label, turned, agrees,
    others⟩

/-- Behind its body a function returns, if its call is on record. -/
theorem Working.step_leave (loaded : Loaded M p tables limits) (mem : f ∈ p.functions)
    (w : Working M p (p.marked tables limits) first top ⟨s, calls⟩ f h cell base)
    (placed : Placed (p.marked tables limits) s.pc (markFirst (f, h) (instrs f.leaving)))
    (last : h = f.after) (sound : M.Sound ⟨s, calls⟩ d) :
    M.Reaches (p.marked tables limits) (AtWork M p (p.marked tables limits) first top) n d := by
  have lines := loaded.marked
  obtain rfl := (Image.step_leaving lines placed).1 sound.step
  obtain ⟨cut, r15, data, pointed, level, waiting⟩ := w
  cases waiting with
  | first =>
    obtain ⟨unsaved, ret⟩ := @Image.Forced.unsave M _ [] s _ _ lines placed r15
    refine unsaved.reaches sound.onStack fun _ => .step ⟨_, ret⟩ fun x sound => ?_
    exact absurd sound.step (Image.not_step_ret (Image.fetch lines ret))
  | @call _ g fr calls _ j base _ callee kept above tail next enough outer =>
    obtain ⟨back, turned, agrees, -⟩ := loaded.back mem placed r15 pointed kept above tail calls
    refine back.reaches sound.onStack fun _ => .here ?_
    obtain ⟨k, cut, same⟩ := next
    have rsp : (s.left M.layout f (fr.state.pc + 1)).regs .rsp = s.regs .rsp := State.left_rsp ..
    refine ⟨g, k, _, base, cut, (State.left_r15 ..).trans r15, rsp ▸ data, turned, fun steady => ?_,
      outer.congr loaded.fits fun _ => agrees.weaken (Nat.le_refl _) fun _ => False.elim⟩
    -- The callee ends with what it leaves on top of the caller's words.
    have ended : f.after = f.contract.leaves := (steady f (List.mem_append_left _ mem)).after
    have here : (s.regs .rsp).toNat + 8 * h
        = (fr.state.regs .rax).toNat + 8 * f.contract.takes := level steady
    obtain ⟨few, whole⟩ := enough steady
    rw [rsp, same steady]
    omega

/-- The code behind the main code leads nowhere. -/
theorem step_exit {whole : List MarkedLine} {m : Mark} {Q : Config → Prop}
    (lines : M.lines = whole.map Prod.fst)
    (placed : Placed whole s.pc (markFirst m (instrs exitCode))) (sound : M.Sound ⟨s, calls⟩ d) :
    M.Reaches whole Q n d := by
  obtain rfl := (Image.step_iff (Image.fetch lines placed.first) rfl).1 sound.step
  refine .step ⟨_, placed.next.first⟩ fun x second _ _ => ?_
  obtain rfl := (Image.step_iff (Image.fetch lines placed.next.first) rfl).1 second.step
  refine .step ⟨_, placed.next.next.first⟩ fun x third _ _ => ?_
  obtain ⟨t, answer, -⟩ := third.step.of_syscall (Image.fetch lines placed.next.next.first)
  exact absurd rfl answer.returns.1

/-! ## Steps and runs -/

/-- A routine returns to the function that called it. -/
theorem Working.step_routine (loaded : Loaded M p tables limits) {r : Asm.Routine}
    (w : Working M p (p.marked tables limits) first top ⟨s, calls⟩ f h cell base)
    (fetch : (itemsOf (p.marked tables limits))[s.pc]? = some (.call r.name, some (f, h)))
    (known : r ∈ Routine.all) (next : Leads (p.marked tables limits) p.Steady (s.pc + 1) f h)
    (sound : M.Sound ⟨s, calls⟩ d) :
    M.Reaches (p.marked tables limits) (AtWork M p (p.marked tables limits) first top) n d := by
  obtain ⟨text, ok⟩ := loaded.spelled
  obtain ⟨e, here⟩ := Program.routineAt ok known
  have lines := loaded.marked
  have gap := loaded.fits.gap
  have inside : s.pc + 1 < M.code.length := by
    obtain ⟨_, ⟨_, found⟩, -⟩ := next
    exact (List.getElem?_eq_some_iff.1 (Image.fetch lines found)).1
  have target : position? r.name M.lines = some e := by rw [lines, here.label]
  obtain rfl := (Image.step_call_iff (Image.fetch lines fetch) target).1 sound.step
  have call : RoutineCall M (p.marked tables limits) limits s r e :=
    ⟨lines, Program.nodup_marked ok, loaded.fits, inside, here⟩
  have high := (State.OnStack.push loaded.fits
    (t := (s.push (M.layout.address (s.pc + 1))).goto e) rfl sound.onStack w.data).1
  have serving : Serving M.layout s 8 ((s.push (M.layout.address (s.pc + 1))).goto e) :=
    ⟨rfl, rfl, Memory.spares_store loaded.fits (Nat.le_trans (by omega) high),
      Memory.load_store_same ..⟩
  refine (call.returns known w.data rfl serving).imp fun x served => ?_
  obtain ⟨u, others⟩ := x
  obtain ⟨rfl, pc, rsp, r15, spares⟩ := served
  refine w.carry loaded (spares.carried loaded.fits r15 (rsp ▸ w.data)) (pc ▸ next) fun steady => ?_
  rw [rsp]
  exact w.level steady

/-- **A function at work stays so**, or calls another or returns to the one that called it. -/
theorem Working.step (loaded : Loaded M p tables limits)
    (w : Working M p (p.marked tables limits) first top c f h cell base) (sound : M.Sound c d) :
    M.Reaches (p.marked tables limits) (AtWork M p (p.marked tables limits) first top) n d := by
  obtain ⟨s, calls⟩ := c
  obtain ⟨text, ok⟩ := loaded.spelled
  have lines := loaded.marked
  obtain ⟨mem, site⟩ := Program.sited ok w.cut
  cases site with
  | plain fetch keeps next enough =>
    have range : ∀ slot, f.Owns limits.pinCapacity slot → M.layout.Holds slot :=
      fun slot own => loaded.fits.holds own.1
    obtain ⟨same, pc, carried, rsp⟩ := keeps.step range loaded.fits sound (Image.fetch lines fetch)
      w.r15 w.data
    obtain ⟨t, others⟩ := d
    obtain rfl : others = calls := same
    refine .here (w.carry loaded carried (pc ▸ next) fun steady => ?_)
    exact (rsp h (enough steady)).trans (w.level steady)
  | routine fetch known next => exact w.step_routine loaded fetch known next sound
  | jump fetch target taken next =>
    have carried : ∀ q, s.Carried M.layout (f.Owns limits.pinCapacity) (s.goto q) :=
      fun q => Memory.Spares.carried loaded.fits (.refl _ _) rfl w.data
    rcases sound.step.of_jump (Image.fetch lines fetch) (lines ▸ target) with ⟨-, rfl⟩ | ⟨-, rfl⟩
    · exact .here (w.carry loaded (carried _) taken w.level)
    · exact .here (w.carry loaded (carried _) next w.level)
  | jmp fetch target taken =>
    obtain rfl := (Image.step_jmp_iff (Image.fetch lines fetch) (lines ▸ target)).1 sound.step
    exact .here (w.carry loaded (Memory.Spares.carried loaded.fits (.refl _ _) rfl w.data) taken
      w.level)
  | call placed known next enough =>
    obtain ⟨g, callee, rfl⟩ := List.mem_map.1 known
    exact w.step_call loaded callee placed next enough sound
  | leave placed last =>
    rcases List.mem_append.1 mem with mem | mem
    · rw [Func.ending, loaded.inner mem] at placed
      exact w.step_leave loaded mem placed last sound
    · obtain rfl := List.mem_singleton.1 mem
      rw [Func.ending, Func.isMain_main (Program.formed_of_ofTokens ok)] at placed
      exact step_exit lines placed sound

/-- **At every mark that a run comes to, some function is at work.** -/
theorem Working.run (loaded : Loaded M p tables limits)
    (w : Working M p (p.marked tables limits) first top c f h cell base) (run : M.Runs n c d)
    (marked : Marked (p.marked tables limits) d.state.pc) :
    AtWork M p (p.marked tables limits) first top d := by
  induction n using Nat.strongRecOn generalizing c f h cell base with
  | ind n ih =>
    cases run with
    | refl => exact ⟨f, h, cell, base, w⟩
    | @head m _ next _ one rest =>
      obtain ⟨j, le, e, ⟨g, k, cell, base, w⟩, run⟩ :=
        w.step loaded one m (Nat.le_refl m) d rest marked
      exact ih j (Nat.lt_succ_of_le le) w run

end Program

end PinnedStack
