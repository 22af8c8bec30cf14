import PinnedStack.Proofs.Machine.Activations

/-!
# Calls are transparent

* `Image.Straight` — one configuration leads to another and to no other on the way.
* `State.SameData` — states with the same data stack.
* `State.Restored` — the pins, the return addresses and the pointer to them are as they were.
* `Program.call_transparent` — whatever the body of a function does, the code around it hands the data
  stack through and restores everything else, at any depth of calls for which the return stack has
  room. `call_of_full_stack` — where it has none, control need not come back.
-/

namespace PinnedStack

open Asm

namespace Asm

/-- One configuration leads to another, and there is no other way to go. -/
inductive Image.Straight (M : Image) : Config → Config → Prop where
  | refl {c : Config} : Straight M c c
  | head {c d e : Config} (only : ∀ x, M.Step c x ↔ x = d) (rest : Straight M d e) : Straight M c e

theorem Image.Straight.steps {M : Image} {c d : Config} (h : M.Straight c d) : M.Steps c d := by
  induction h with
  | refl => exact .refl
  | head only _ ih => exact .head ((only _).2 rfl) ih

theorem Image.Forced.straight {M : Image} {whole : List MarkedLine} {c d : Config}
    (h : M.Forced whole c d) : M.Straight c d := by
  induction h with
  | refl => exact .refl
  | head _ only _ ih => exact .head only ih

/-- Two states have the same data stack: `rsp` leads to the same place, and no memory differs but the
pins and the return stack with its pointer. -/
structure State.SameData (L : Layout) (s t : State) : Prop where
  rsp : t.regs .rsp = s.regs .rsp
  mem : Memory.Elsewhere L s.mem t.mem

theorem State.SameData.top {L : Layout} {limits : Limits} {extent : Nat} (fits : L.Fits limits extent)
    {s t : State} (same : s.SameData L t) (data : L.dataStack ≤ (s.regs .rsp).toNat)
    (high : (s.regs .rsp).toNat + 8 ≤ 2 ^ 64) : t.top = s.top := by
  rw [State.top, State.top, same.rsp]
  refine Memory.load_congr fun i lt => same.mem _ (.inr ?_)
  have gap := fits.gap
  rw [toNat_add_ofNat (by omega)]
  omega

/-- The pins and the return stack from `cell` on are as they were. -/
structure State.Restored (L : Layout) (cell : Nat) (s t : State) : Prop where
  r15 : t.regs .r15 = s.regs .r15
  pointer : t.mem.load (L.symbol "ret_stack_rsp") = s.mem.load (L.symbol "ret_stack_rsp")
  stack : ∀ x : Word, cell ≤ x.toNat → x.toNat < L.returnEnd → t.mem x = s.mem x
  pins : ∀ slot, L.Holds slot → t.mem.load (L.slot slot) = s.mem.load (L.slot slot)

end Asm

/-- The state in front of the code of a call: `r15` leads to the pins, the data stack is where it
should be, and the return stack has room for what the callee keeps. -/
structure Asm.State.MayCall (L : Layout) (f : Func) (cell : Nat) (s : State) : Prop where
  r15 : s.regs .r15 = BitVec.ofNat 64 L.pins
  data : L.dataStack ≤ (s.regs .rsp).toNat
  pointed : s.mem.Pointed L cell
  room : L.returnStack + 8 * (f.slots.length + 1) ≤ cell

section Program

variable {M : Image} {p : Program} {tables : Tables} {limits : Limits} {f g : Func} {cell n : Nat}
  {s t : State} {place : Place}

/-- The code of a call stands where the call does, and the body goes on behind it. -/
theorem Loaded.call_placed (loaded : Loaded M p tables limits) (caller : g ∈ p.bodies)
    {start h k : Nat} (here : position? g.label M.lines = some start)
    (site : Occurs (.call f.call place) h g.body g.contract.takes k) :
    Placed (p.marked tables limits) (start + g.front.length + k)
        (markFirst (g, h) (instrs f.call.code))
      ∧ Leads (p.marked tables limits) p.Steady (start + g.front.length + k + 5) g
        (h - f.contract.takes + f.contract.leaves)
      ∧ (p.Steady → f.contract.takes ≤ h) := by
  obtain ⟨e, stands⟩ := loaded.stands caller
  have label := stands.label
  rw [← loaded.marked, here] at label
  obtain rfl : start = e := Option.some.inj label
  obtain ⟨rest, body, opens⟩ := stands.body
  obtain ⟨more, found, onward, enough⟩ :=
    site.placed body (opens p.Steady) fun steady => (steady g caller).body
  simp only [Node.marked, List.cons_append] at found
  have code := found.skip rfl
  exact ⟨code.left, code.right.leads onward, enough⟩

/-- **Calls are transparent.** From the code of a call control goes straight to the body of the
function, with the same data stack. Wherever the body ends with, after any run in which the
function itself calls others, or itself, to any depth, control goes straight on behind the code of the
call: with the data stack that the body ended with, and with all pins and the return stack as they
were before the call. The record of calls starts with this one, so that the run of the body cannot
go back past it. -/
theorem Program.call_transparent {text file : String}
    (ok : Program.ofText limits text file = .ok (p, tables)) (lines : M.lines = p.lines tables limits)
    (fits : M.layout.Fits limits M.code.length) (caller : g ∈ p.bodies) (callee : f ∈ p.functions)
    {start body h k : Nat} (here : position? g.label M.lines = some start)
    (there : position? f.label M.lines = some body)
    (site : Occurs (.call f.call place) h g.body g.contract.takes k) (pc : s.pc = start + g.front.length + k)
    (may : s.MayCall M.layout f cell) :
    ∃ u fr, u.pc = body + f.front.length ∧ u.regs .r15 = s.regs .r15 ∧ s.SameData M.layout u
      ∧ M.Straight ⟨s, []⟩ ⟨u, [fr]⟩
      ∧ ∀ n t, M.Runs n ⟨u, [fr]⟩ ⟨t, [fr]⟩ → t.pc = body + f.front.length + extentOf f.body →
        ∃ t', t'.pc = s.pc + 5 ∧ t.SameData M.layout t' ∧ s.Restored M.layout cell t'
          ∧ M.Straight ⟨t, [fr]⟩ ⟨t', []⟩ := by
  obtain ⟨scanned, -, spelled⟩ := Program.ofText_eq_ok ok
  have loaded : Loaded M p tables limits := ⟨⟨scanned, spelled⟩, lines, fits⟩
  have marked := loaded.marked
  have inner := loaded.inner callee
  obtain ⟨code, next, enough⟩ := loaded.call_placed caller here site
  rw [← pc] at code next
  obtain ⟨e, stands⟩ := loaded.stands (List.mem_append_left _ callee)
  have label := stands.label
  rw [← marked, there] at label
  obtain rfl : body = e := Option.some.inj label
  have front : f.front.length = f.slots.length + 2 := by
    simp [Func.front, inner, Func.entering]
  have rsp := calling_rsp may.pointed fits
  let u := (s.calling M.layout).entered M.layout f body
  let fr : Asm.Frame := ⟨f.label, s.calling M.layout⟩
  obtain ⟨-, -, elsewhere⟩ := State.entered_kept fits (s := s.calling M.layout) (e := body)
    (loaded.holds callee) (rsp ▸ may.room) (rsp ▸ may.pointed.high)
  refine ⟨u, fr, ?_, State.entered_r15 .., ⟨State.entered_rsp .., elsewhere⟩, ?_,
    fun n t run last => ?_⟩
  · rw [front]
    exact State.entered_pc ..
  · have whole : Placed (p.marked tables limits) s.pc
        (markFirst (g, h) (instrs f.call.code) ++ []) := by rwa [List.append_nil]
    have entry : M.Forced (p.marked tables limits) ⟨(s.set .rax (s.regs .rsp)).goto (s.pc + 1), []⟩
        ⟨u, [fr]⟩ := (Image.Forced.call marked whole stands inner rfl may.r15).trans
      (Image.Forced.enter marked stands inner (State.saved_pc ..))
    exact .head (fun _ => Image.step_call_code marked whole) entry.straight
  · obtain ⟨_, _, _, _, working⟩ := loaded.working_entered callee stands code may.r15 may.data
      may.pointed may.room next (fun steady => ⟨enough steady, rfl⟩) .first
    have ending := stands.ending
    rw [Func.ending, inner, ← last] at ending
    have cut : Cut (p.marked tables limits) t.pc f f.after := ⟨_, ending.first⟩
    obtain ⟨_, _, _, _, working⟩ := working.run loaded run ⟨_, _, cut⟩
    obtain ⟨rfl, -⟩ := cut.unique working.cut
    obtain ⟨-, r15, -, pointed, -, waiting⟩ := working
    cases waiting with
    | call _ kept above tail =>
      obtain ⟨exit, turned, agrees, others⟩ :=
        loaded.back callee ending r15 pointed kept above tail []
      refine ⟨t.left M.layout f (fr.state.pc + 1), State.left_pc .., ⟨State.left_rsp .., others⟩, ?_,
        .head (fun _ => Image.step_leaving marked ending) exit.straight⟩
      refine ⟨(State.left_r15 ..).trans (r15.trans may.r15.symm), ?_, fun x ge => ?_, fun slot there => ?_⟩
      · rw [turned.word, may.pointed.word]
        exact congrArg (BitVec.ofNat 64) rsp
      · exact agrees.stack x (Nat.le_trans (Nat.le_of_eq rsp) ge)
      · exact agrees.pins slot there not_false

end Program

/-! ## An example -/

/-- A layout for the usual limits, with code from the lowest address on. -/
def Asm.Layout.usual : Layout where
  address q := BitVec.ofNat 64 q
  symbol name :=
    if name = "pins" then 4096
    else if name = "ret_stack_rsp" then 36864
    else if name = "ret_stack_end" then 102408
    else 0
  pins := 4096
  returnPointer := 36864
  returnStack := 36872
  returnEnd := 102408
  dataStack := 102472

theorem Asm.Layout.fits_usual {extent : Nat} (few : extent ≤ 2 ^ 64) :
    Layout.usual.Fits {} extent := by
  refine ⟨fun q qlt r rlt same => ?_, rfl, rfl, rfl, by decide, rfl, rfl, rfl, by decide, by decide⟩
  have bits := congrArg BitVec.toNat same
  simp only [usual, BitVec.toNat_ofNat] at bits
  omega

/-- The function `: keep ( x:Number -- Number ) x ;`. -/
def keep : Func where
  label := "fn_0"
  name := "keep"
  contract := ⟨[.number], [.number]⟩
  named := true
  body := [.op (.pin ⟨"x", .number, 0⟩) ⟨1, 3, "t"⟩, .op (.pinned ⟨"x", .number, 0⟩) ⟨1, 31, "t"⟩,
    .op (.unpin ⟨"x", .number, 0⟩) ⟨1, 3, "t"⟩]
  firstSlot := 0
  endSlot := 1
  place := ⟨1, 3, "t"⟩

/-- The program that calls `keep` once. -/
def keepOnce : Program where
  functions := [keep]
  main := .entry [.op (.number 5) ⟨1, 35, "t"⟩, .call keep.call ⟨1, 37, "t"⟩,
    .op .print ⟨1, 42, "t"⟩] ⟨1, 1, "t"⟩

theorem ofText_keepOnce :
    Program.ofText {} ": keep ( x:Number -- Number ) x ; 5 keep print" "t"
      = .ok (keepOnce, .empty) := by
  rfl

/-- `keepOnce` in memory. -/
def keepImage : Image := ⟨keepOnce.lines .empty {}, .usual⟩

/-- In front of the call of `keep`, with 5 on the data stack. -/
def beforeKeep : State where
  regs r :=
    match r with
    | .rsp => 200000
    | .r15 => 4096
    | _ => 0
  flags := none
  mem := (Memory.store (fun _ => 0) 200000 5).store 36864 102408
  pc := 46

theorem mayCall_beforeKeep : beforeKeep.MayCall .usual keep 102408 where
  r15 := rfl
  data := by decide
  pointed := ⟨Memory.load_store_same .., by decide, by decide⟩
  room := by decide

/-- The body of `keep` takes the word on top into its pin and puts it back. -/
theorem runs_keep {u : State} {calls : List Asm.Frame} (pc : u.pc = 59) (r15 : u.regs .r15 = 4096)
    (rsp : u.regs .rsp = 200000) :
    ∃ t, keepImage.Runs 2 ⟨u, calls⟩ ⟨t, calls⟩ ∧ t.pc = 61 ∧ t.regs .rsp = 200000
      ∧ t.top = u.top := by
  let taken := { u.pop with mem := u.mem.store (Layout.usual.slot 0) u.top }.goto 60
  let put := (taken.push (taken.mem.load (Layout.usual.slot 0))).goto 61
  have first : keepImage.code[u.pc]? = some (.pop (slotOperand 0)) := by
    rw [pc]
    decide +kernel
  have second : keepImage.code[60]? = some (.push (slotOperand 0)) := by decide +kernel
  have below : taken.regs .rsp = 200008 := by
    rw [State.goto_regs, State.pop_rsp, rsp]
    rfl
  have back : put.regs .rsp = 200000 := by
    rw [State.goto_regs, State.push_rsp, below]
    rfl
  have took : keepImage.Sound ⟨u, calls⟩ ⟨taken, calls⟩ := by
    have address : (Mem.offset .r15 (0 * wordBytes)).address keepImage.layout u.pop
        = Layout.usual.slot 0 := Layout.address_slot r15 0
    have done : (Instr.pop (slotOperand 0)).effect keepImage.layout u
        = some { u.pop with mem := u.mem.store (Layout.usual.slot 0) u.top } := by
      rw [Instr.effect, slotOperand, Operand.write, address]
      rfl
    have sound := @Image.Sound.of_effect keepImage u _ calls _ first done
    rw [pc] at sound
    exact sound (.inl (by rw [below]; decide)) rfl
  have placed : keepImage.Sound ⟨taken, calls⟩ ⟨put, calls⟩ := by
    have address : (Mem.offset .r15 (0 * wordBytes)).address keepImage.layout taken
        = Layout.usual.slot 0 := Layout.address_slot r15 0
    have done : (Instr.push (slotOperand 0)).effect keepImage.layout taken
        = some (taken.push (taken.mem.load (Layout.usual.slot 0))) := by
      rw [Instr.effect, slotOperand, Operand.read, address]
      rfl
    have on : put.OnStack keepImage.layout := .inl (by rw [back]; decide)
    exact .of_effect second done on rfl
  have word : put.mem = taken.mem.store (taken.regs .rsp - 8) (taken.mem.load (Layout.usual.slot 0)) :=
    rfl
  have kept : taken.mem.load (Layout.usual.slot 0) = u.top := Memory.load_store_same ..
  refine ⟨put, .head took (.head placed .refl), rfl, back, ?_⟩
  rw [State.top, back, word, below, kept]
  exact Memory.load_store_same ..

/-- The call of `keep` hands on the 5, and the pins and the return stack are as they were. -/
theorem call_transparent_keepOnce :
    ∃ t, keepImage.Steps ⟨beforeKeep, []⟩ ⟨t, []⟩ ∧ t.pc = 51 ∧ t.regs .rsp = 200000 ∧ t.top = 5
      ∧ beforeKeep.Restored .usual 102408 t := by
  have fits : Layout.usual.Fits {} keepImage.code.length :=
    Layout.fits_usual (by decide +kernel)
  obtain ⟨u, fr, pc, r15, data, into, onward⟩ :=
    Program.call_transparent (s := beforeKeep) ofText_keepOnce (M := keepImage) rfl fits
      (List.mem_append_right _ (List.mem_singleton_self _)) (List.mem_singleton_self keep)
      (by decide +kernel : position? "_start" keepImage.lines = some 42)
      (by decide +kernel : position? keep.label keepImage.lines = some 56) (.later .here)
      (by decide +kernel) mayCall_beforeKeep
  have start : u.pc = 59 := pc.trans (by decide)
  obtain ⟨t, run, last, back, word⟩ := @runs_keep u [fr] start r15 data.rsp
  obtain ⟨t', behind, same, restored, out⟩ := onward 2 t run (last.trans (by decide +kernel))
  have first : u.top = 5 := (data.top fits (by decide) (by decide)).trans
    ((Memory.load_store_apart (by decide) (by decide)).trans (Memory.load_store_same ..))
  have final : t'.top = t.top := same.top fits (by rw [back]; decide) (by rw [back]; decide)
  exact ⟨t', (into.steps.trans run.steps).trans out.steps, behind, same.rsp.trans back,
    final.trans (word.trans first), restored⟩

/-! ## A full return stack -/

/-- The function `: dive ( Number -- ) dup if 1 - dive else drop ; ;`, which calls itself as often
as its input says. -/
def dive : Func where
  label := "fn_0"
  name := "dive"
  contract := ⟨[.number], []⟩
  named := false
  body := [.op .dup ⟨1, 22, "t"⟩,
    .ifElse
      [.op (.number 1) ⟨1, 29, "t"⟩, .op (.binary .sub) ⟨1, 31, "t"⟩,
        .call ⟨"fn_0", "dive", ⟨[.number], []⟩⟩ ⟨1, 33, "t"⟩]
      [.op .drop ⟨1, 43, "t"⟩] 0 ⟨1, 26, "t"⟩]
  firstSlot := 0
  endSlot := 0
  place := ⟨1, 3, "t"⟩

/-- The program that dives 8192 calls deep. -/
def diveDeep : Program where
  functions := [dive]
  main := .entry [.op (.number 8192) ⟨2, 1, "t"⟩, .call dive.call ⟨2, 6, "t"⟩] ⟨1, 1, "t"⟩

theorem ofText_diveDeep :
    Program.ofText {} ": dive ( Number -- ) dup if 1 - dive else drop ; ;\n8192 dive" "t"
      = .ok (diveDeep, .empty) := by
  rfl

def diveImage : Image := ⟨diveDeep.lines .empty {}, .usual⟩

/-- In front of the main code. -/
def beforeDive : State where
  regs r :=
    match r with
    | .rsp => 200008
    | _ => 0
  flags := none
  mem _ := 0
  pc := 42

/-- In front of a position of the code, with a number on top of the data stack and the pointer of the
return stack at `cell`. -/
structure Dives (pc n cell : Nat) (s : State) : Prop where
  pc : s.pc = pc
  rsp : s.regs .rsp = 200000
  top : s.mem.load 200000 = BitVec.ofNat 64 n
  pointer : s.mem.load 36864 = BitVec.ofNat 64 cell

section Dive

variable {n cell : Nat} {s : State} (calls : List Asm.Frame)

theorem dives_main : ∃ s, diveImage.Steps ⟨beforeDive, []⟩ ⟨s, []⟩ ∧ Dives 46 8192 102408 s := by
  have pins : diveImage.code[42]? = some (.movAddress .r15 "pins") := by decide +kernel
  have stackEnd : diveImage.code[43]? = some (.movAddress .rax "ret_stack_end") := by
    decide +kernel
  have pointer : diveImage.code[44]? = some (.mov returnPointer (.reg .rax)) := by decide +kernel
  have push : diveImage.code[45]? = some (.push (.imm 8192)) := by decide +kernel
  refine ⟨_, .head (.effect pins rfl) (.head (.effect stackEnd rfl) (.head (.effect pointer rfl)
    (.head (.effect push rfl) .refl))), rfl, rfl, Memory.load_store_same .., ?_⟩
  exact (Memory.load_store_apart (by decide) (by decide)).trans (Memory.load_store_same ..)

/-- The code of a call of `dive` leads into its body, whether there is room on the return stack or
not. -/
theorem dives_call {pc : Nat} (first : diveImage.code[pc]? = some (.movReg .rax .rsp))
    (second : diveImage.code[pc + 1]? = some (.mov (.reg .rsp) returnPointer))
    (third : diveImage.code[pc + 2]? = some (.call "fn_0")) (h : Dives pc n (cell + 8) s)
    (low : 36864 ≤ cell) (high : cell ≤ 102400) :
    ∃ u fr, diveImage.Straight ⟨s, calls⟩ ⟨u, fr :: calls⟩ ∧ Dives 56 n cell u
      ∧ s.SameData .usual u := by
  obtain ⟨rfl, rsp, top, pointer⟩ := h
  have target : position? "fn_0" diveImage.lines = some 54 := by decide +kernel
  have fourth : diveImage.code[54]? = some (.mov returnPointer (.reg .rsp)) := by decide +kernel
  have fifth : diveImage.code[55]? = some (.movReg .rsp .rax) := by decide +kernel
  have small : cell < 2 ^ 64 := by omega
  have down : s.mem.load 36864 - 8 = BitVec.ofNat 64 cell := by
    rw [pointer]
    bv_omega
  have elsewhere : ∀ x : Word, x.toNat < 4096 ∨ 102408 ≤ x.toNat →
      ((s.mem.store (s.mem.load 36864 - 8) (BitVec.ofNat 64 (s.pc + 2 + 1))).store 36864
        (s.mem.load 36864 - 8)) x = s.mem x := by
    intro x outside
    have address : (BitVec.ofNat 64 cell).toNat = cell := Nat.mod_eq_of_lt small
    rw [down, Memory.store_of_outside (by decide) (outside.imp (by simp; omega) (by simp; omega)),
      Memory.store_of_outside (by omega) (by omega)]
  refine ⟨_, _, .head (fun _ => Image.step_iff first rfl)
    (.head (fun _ => Image.step_iff second rfl) (.head (fun _ => Image.step_call_iff third target)
      (.head (fun _ => Image.step_iff fourth rfl) (.head (fun _ => Image.step_iff fifth rfl)
        .refl)))), ⟨rfl, rsp, ?_, ?_⟩, rfl, elsewhere⟩
  · rw [← top]
    exact Memory.load_congr fun i lt => elsewhere _ (.inr (by bv_omega))
  · exact (Memory.load_store_same ..).trans down

theorem dives_test (h : Dives 56 n cell s) :
    ∃ t, diveImage.Runs 3 ⟨s, calls⟩ ⟨t, calls⟩ ∧ Dives 59 n cell t
      ∧ t.flags = some (.ofConjunction (BitVec.ofNat 64 n) (BitVec.ofNat 64 n)) := by
  obtain ⟨regs, flags, mem, pc⟩ := s
  obtain ⟨rfl, rsp, top, pointer⟩ := h
  have dup : diveImage.code[56]? = some (.push (.qword (.at .rsp))) := by decide +kernel
  have pop : diveImage.code[57]? = some (.popReg .rax) := by decide +kernel
  have test : diveImage.code[58]? = some (.testReg .rax) := by decide +kernel
  let s : State := ⟨regs, flags, mem, 56⟩
  let copied := (s.push s.top).goto 57
  let taken := (copied.pop.set .rax copied.top).goto 58
  let tested : State :=
    { taken with flags := some (.ofConjunction (taken.regs .rax) (taken.regs .rax)) }.goto 59
  have rsp : s.regs .rsp = 200000 := rsp
  have below : copied.regs .rsp = 199992 := by
    rw [State.goto_regs, State.push_rsp, rsp]
    rfl
  have back : taken.regs .rsp = 200000 := by
    show copied.regs .rsp + 8 = _
    rw [below]
    rfl
  have word : taken.regs .rax = BitVec.ofNat 64 n := by
    rw [← top, ← rsp]
    exact Memory.load_store_same ..
  have kept : ∀ x : Word, x.toNat < 199992 ∨ 200000 ≤ x.toNat → taken.mem x = mem x := by
    intro x outside
    show (mem.store (s.regs .rsp - 8) _) x = _
    rw [rsp]
    exact Memory.store_of_outside (by decide) outside
  have on : copied.OnStack .usual := .inl (by rw [below]; decide)
  have on' : taken.OnStack .usual := .inl (by rw [back]; decide)
  refine ⟨tested, .head (.of_effect dup rfl on rfl) (.head (.of_effect pop rfl on' rfl)
    (.head (.of_effect test rfl on' rfl) .refl)), ⟨rfl, back, ?_, ?_⟩, ?_⟩
  · rw [← top]
    exact Memory.load_congr fun i lt => kept _ (.inr (by bv_omega))
  · rw [← pointer]
    exact Memory.load_congr fun i lt => kept _ (.inl (by bv_omega))
  · rw [← word]
    rfl

theorem dives_down (few : n < 8192) (h : Dives 59 (n + 1) cell s)
    (flags : s.flags = some (.ofConjunction (BitVec.ofNat 64 (n + 1)) (BitVec.ofNat 64 (n + 1)))) :
    ∃ t, diveImage.Steps ⟨s, calls⟩ ⟨t, calls⟩ ∧ Dives 65 n cell t := by
  have onward : s.Allows .z false := by
    intro f known
    cases flags.symm.trans known
    show (BitVec.ofNat 64 (n + 1) &&& BitVec.ofNat 64 (n + 1) == 0) = false
    rw [BitVec.and_self, beq_eq_false_iff_ne]
    bv_omega
  obtain ⟨regs, flags, mem, pc⟩ := s
  obtain ⟨rfl, rsp, top, pointer⟩ := h
  have jump : diveImage.code[59]? = some (.jump .z "if_0_else") := by decide +kernel
  have one : diveImage.code[60]? = some (.push (.imm 1)) := by decide +kernel
  have right : diveImage.code[61]? = some (.popReg .rbx) := by decide +kernel
  have left : diveImage.code[62]? = some (.popReg .rax) := by decide +kernel
  have sub : diveImage.code[63]? = some (.arithReg .sub .rax .rbx) := by decide +kernel
  have push : diveImage.code[64]? = some (.pushReg .rax) := by decide +kernel
  have rsp : regs .rsp = 200000 := rsp
  let counted := mem.store 199992 1
  have less : counted.load 200000 - counted.load 199992 = BitVec.ofNat 64 n := by
    rw [Memory.load_store_same, Memory.load_store_apart (by decide) (by decide), top]
    bv_omega
  have words : (mem.store (regs .rsp - 8) 1).store (regs .rsp - 8 + 8 + 8 - 8)
      ((mem.store (regs .rsp - 8) 1).load (regs .rsp - 8 + 8)
        - (mem.store (regs .rsp - 8) 1).load (regs .rsp - 8))
      = counted.store 200000 (BitVec.ofNat 64 n) := by
    rw [rsp, ← less]
    rfl
  refine ⟨_, .head (.passed jump onward) (.head (.effect one rfl) (.head (.effect right rfl)
    (.head (.effect left rfl) (.head (.effect sub rfl) (.head (.effect push rfl) .refl))))), rfl,
    ?_, ?_, ?_⟩
  · show regs .rsp - 8 + 8 + 8 - 8 = _
    rw [rsp]
    rfl
  · exact (congrArg (Memory.load · 200000) words).trans (Memory.load_store_same ..)
  · refine (congrArg (Memory.load · 36864) words).trans ?_
    exact (Memory.load_store_apart (by decide) (by decide)).trans
      ((Memory.load_store_apart (by decide) (by decide)).trans pointer)

/-- Zero is dropped. -/
theorem dives_end (h : Dives 59 0 cell s)
    (flags : s.flags = some (.ofConjunction (BitVec.ofNat 64 0) (BitVec.ofNat 64 0))) :
    ∃ t, diveImage.Runs 2 ⟨s, calls⟩ ⟨t, calls⟩ ∧ t.pc = 72 ∧ t.regs .rsp = 200008
      ∧ t.mem = s.mem := by
  have zero : s.Allows .z true := by
    intro f known
    cases flags.symm.trans known
    decide
  obtain ⟨regs, known, mem, pc⟩ := s
  obtain ⟨rfl, rsp, top, pointer⟩ := h
  have jump : diveImage.code[59]? = some (.jump .z "if_0_else") := by decide +kernel
  have target : position? "if_0_else" diveImage.lines = some 71 := by decide +kernel
  have drop : diveImage.code[71]? = some (.arith .add (.reg .rsp) (.imm 8)) := by decide +kernel
  have rsp : regs .rsp = 200000 := rsp
  have up : regs .rsp + 8 = 200008 := by
    rw [rsp]
    rfl
  have before : 102472 ≤ (regs .rsp).toNat := by
    rw [rsp]
    decide
  have after : 102472 ≤ (regs .rsp + 8).toNat := by
    rw [up]
    decide
  have jumped : diveImage.Sound ⟨⟨regs, known, mem, 59⟩, calls⟩ ⟨⟨regs, known, mem, 71⟩, calls⟩ :=
    .of_step jump (.taken jump zero target) (.inl before) rfl
  exact ⟨_, .head jumped (.head (.of_effect drop rfl (.inl after) rfl) .refl), rfl, up, rfl⟩

/-- Behind its body `dive` cannot return where the pointer of the return stack leads to itself: the
return address would have to be there. -/
theorem dives_nowhere {fr : Asm.Frame} {t : State} (pc : s.pc = 72)
    (pointer : s.mem.load 36864 = 36864) :
    ¬ diveImage.Steps ⟨s, fr :: calls⟩ ⟨t, calls⟩ := by
  obtain ⟨regs, flags, mem, _⟩ := s
  cases pc
  have first : diveImage.code[72]? = some (.movReg .rax .rsp) := by decide +kernel
  have second : diveImage.code[73]? = some (.mov (.reg .rsp) returnPointer) := by decide +kernel
  have third : diveImage.code[74]? = some .ret := by decide +kernel
  have length : diveImage.code.length = 75 := by decide +kernel
  have pointer : mem.load 36864 = 36864 := pointer
  intro steps
  cases steps with
  | head one rest =>
  obtain rfl := (Image.step_iff first rfl).1 one
  cases rest with
  | head one rest =>
  obtain rfl := (Image.step_iff second rfl).1 one
  cases rest with
  | head one rest =>
  obtain ⟨_, _, q, -, inside, back, -⟩ := one.of_ret third
  have back : BitVec.ofNat 64 q = mem.load (mem.load 36864) := back
  rw [pointer, pointer] at back
  bv_omega

/-- One level further down. -/
theorem dives_round {pc : Nat} (first : diveImage.code[pc]? = some (.movReg .rax .rsp))
    (second : diveImage.code[pc + 1]? = some (.mov (.reg .rsp) returnPointer))
    (third : diveImage.code[pc + 2]? = some (.call "fn_0")) (few : n < 8192) (low : 36864 ≤ cell)
    (high : cell ≤ 102400) (h : Dives pc (n + 1) (cell + 8) s) :
    ∃ t others, diveImage.Steps ⟨s, calls⟩ ⟨t, others⟩ ∧ Dives 65 n cell t := by
  obtain ⟨u, fr, into, front, -⟩ := dives_call calls first second third h low high
  obtain ⟨v, look, tested, flags⟩ := dives_test (fr :: calls) front
  obtain ⟨t, down, last⟩ := dives_down (fr :: calls) few tested flags
  exact ⟨t, _, (into.steps.trans look.steps).trans down, last⟩

/-- After `d` levels the number is smaller by `d`, and `d` more return addresses are on the return
stack. -/
theorem exists_dives (d : Nat) : ∀ n cell : Nat, n + d = 8191 → cell + 8 * d = 102400 →
    ∃ s calls, diveImage.Steps ⟨beforeDive, []⟩ ⟨s, calls⟩ ∧ Dives 65 n cell s := by
  induction d with
  | zero =>
    intro n cell number room
    obtain rfl : n = 8191 := number
    obtain rfl : cell = 102400 := room
    obtain ⟨s, start, h⟩ := dives_main
    obtain ⟨t, calls, onward, h⟩ := dives_round [] (by decide +kernel)
      (by decide +kernel) (by decide +kernel) (by decide) (by decide) (by decide) h
    exact ⟨t, calls, start.trans onward, h⟩
  | succ d ih =>
    intro n cell number room
    obtain ⟨s, calls, start, h⟩ := ih (n + 1) (cell + 8) (by omega) (by omega)
    obtain ⟨t, calls, onward, h⟩ := dives_round calls (by decide +kernel)
      (by decide +kernel) (by decide +kernel) (by omega) (by omega) (by omega) h
    exact ⟨t, calls, start.trans onward, h⟩

end Dive

/-- **A call on a full return stack does not come back.** With the usual limits there are 8192
addresses on the return stack when `dive` is called with zero. Its return address then goes where the
pointer of the return stack is kept, and is lost when the pointer is put away. The body ends, but
control never gets behind the call. -/
theorem call_of_full_stack :
    Program.ofText {} ": dive ( Number -- ) dup if 1 - dive else drop ; ;\n8192 dive" "t"
        = .ok (diveDeep, .empty)
      ∧ ∃ s calls u fr t, diveImage.Steps ⟨beforeDive, []⟩ ⟨s, calls⟩ ∧ s.pc = 65
        ∧ s.mem.Pointed .usual Layout.usual.returnStack
        ∧ diveImage.Straight ⟨s, calls⟩ ⟨u, fr :: calls⟩ ∧ u.pc = 56 ∧ s.SameData .usual u
        ∧ diveImage.Runs 5 ⟨u, fr :: calls⟩ ⟨t, fr :: calls⟩ ∧ t.pc = 72 ∧ t.regs .rsp = 200008
        ∧ ∀ t', ¬ diveImage.Steps ⟨t, fr :: calls⟩ ⟨t', calls⟩ := by
  obtain ⟨s, calls, start, full⟩ := exists_dives 8191 0 36872 rfl rfl
  obtain ⟨u, fr, into, front, same⟩ := dives_call calls (by decide +kernel)
    (by decide +kernel) (by decide +kernel) full (Nat.le_refl _) (by decide)
  obtain ⟨v, look, tested, flags⟩ := dives_test (fr :: calls) front
  obtain ⟨t, down, pc, rsp, mem⟩ := dives_end (fr :: calls) tested flags
  refine ⟨ofText_diveDeep, s, calls, u, fr, t, start, full.pc, ⟨full.pointer, by decide, by decide⟩,
    into, front.pc, same, look.trans down, pc, rsp, fun t' => ?_⟩
  exact dives_nowhere calls pc (by rw [mem]; exact tested.pointer)

end PinnedStack
