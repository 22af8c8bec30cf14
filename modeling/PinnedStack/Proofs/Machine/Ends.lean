import PinnedStack.Proofs.Machine.Operators

/-!
# Runs that end

* `Image.Ends` — every run from a configuration comes to an end of some kind, and the system calls
  that it makes are handed on to what is said about the end.
* `Ends.outcomes`, `Ends.test`, `Ends.syscall` and others — one rule for each kind of instruction.
* `Image.Carries` — a routine in memory, with its labels. `Program.carries` — the routines of a
  program.
-/

namespace PinnedStack

namespace Asm

/-! ## Ends -/

/-- The state in which the kernel is asked, if the next instruction asks it. -/
def Image.asked (M : Image) (c : Config) : List State :=
  if M.code[c.state.pc]? = some .syscall then [c.state] else []

/-- Every run from a configuration ends, wherever there is a choice, and none gets stuck: it passes
through configurations of one kind, to one of another kind. What the end is like may depend on the
system calls that were made, of which the first ones are given. -/
inductive Image.Ends (M : Image) (way : Config → Prop) (last : List State → Config → Prop) :
    List State → Config → Prop where
  | here {made : List State} {c : Config} (done : last made c) : Ends M way last made c
  | next {made : List State} {c : Config} (inside : way c) (goes : ∃ d, M.Step c d)
      (all : ∀ d, M.Step c d → Ends M way last (made ++ M.asked c) d) : Ends M way last made c

namespace Image

variable {M : Image} {way : Config → Prop} {last : List State → Config → Prop}
  {made : List State} {s t : State} {calls : List Frame} {c d : Config} {i : Instr} {q : Nat}

theorem asked_eq_nil (fetch : M.code[c.state.pc]? = some i) (other : i ≠ .syscall) :
    M.asked c = [] :=
  if_neg fun asks => other (Option.some.inj (fetch.symm.trans asks))

theorem Ends.only (inside : way c) (silent : M.asked c = []) (only : ∀ x, M.Step c x ↔ x = d)
    (rest : M.Ends way last made d) : M.Ends way last made c := by
  refine .next inside ⟨d, (only d).2 rfl⟩ fun x step => ?_
  obtain rfl := (only x).1 step
  rw [silent, List.append_nil]
  exact rest

theorem Ends.outcome (fetch : M.code[s.pc]? = some i) (done : i.outcome M.layout s = some t)
    (inside : way ⟨s, calls⟩) (rest : M.Ends way last made ⟨t.goto (s.pc + 1), calls⟩) :
    M.Ends way last made ⟨s, calls⟩ := by
  refine .only inside (asked_eq_nil fetch ?_) (fun _ => step_outcome_iff fetch done) rest
  rintro rfl
  cases done

/-- Quiet instructions with known outcomes. -/
theorem Ends.outcomes {is : List Instr} (holds : M.Holds s.pc is)
    (done : outcomes M.layout is s = some t) (quiet : ∀ i ∈ is, i.quiet = true)
    (inside : ∀ u, s.Quiet u → way ⟨u, calls⟩) (rest : M.Ends way last made ⟨t, calls⟩) :
    M.Ends way last made ⟨s, calls⟩ := by
  induction is generalizing s with
  | nil =>
    cases done
    exact rest
  | cons i is ih =>
    obtain ⟨u, one, others⟩ := Option.bind_eq_some_iff.1 done
    have step : s.Quiet u := Instr.quiet_outcome (quiet i (List.mem_cons_self ..)) one
    rw [← List.singleton_append] at holds
    have tail : M.Holds (s.pc + 1) is := holds.right
    refine .outcome holds.fetch one (inside s (.refl s)) ?_
    refine ih tail others (fun j mem => quiet j (List.mem_cons_of_mem _ mem)) fun v later => ?_
    exact inside v (step.trans ⟨later.mem, later.rsp, later.r15⟩)

/-- A jump whose condition is known. -/
theorem Ends.jump {cond : Cond} {l : String} {f : Flags}
    (fetch : M.code[s.pc]? = some (.jump cond l)) (target : position? l M.lines = some q)
    (known : s.flags = some f) (inside : way ⟨s, calls⟩)
    (rest : M.Ends way last made ⟨s.goto (if cond.holds f then q else s.pc + 1), calls⟩) :
    M.Ends way last made ⟨s, calls⟩ := by
  have allows : ∀ b, s.Allows cond b ↔ cond.holds f = b :=
    fun b => ⟨fun h => h f known, fun h g here => by
      rw [known] at here
      cases here
      exact h⟩
  refine .only inside (asked_eq_nil fetch (by simp)) (fun x => ⟨fun step => ?_, ?_⟩) rest
  · rcases step.of_jump fetch target with ⟨holds, rfl⟩ | ⟨holds, rfl⟩
    · rw [if_pos ((allows true).1 holds)]
    · rw [if_neg (by simp [(allows false).1 holds])]
  · rintro rfl
    split
    · rename_i holds
      exact .taken fetch ((allows true).2 holds) target
    · rename_i holds
      exact .passed fetch ((allows false).2 (by simpa using holds))

/-- A jump on a register that was compared with zero. -/
theorem Ends.test {r : Reg} {cond : Cond} {l : String} {b : Bool}
    (tests : M.code[s.pc]? = some (.testReg r)) (jumps : M.code[s.pc + 1]? = some (.jump cond l))
    (target : position? l M.lines = some q)
    (known : cond.holds (.ofConjunction (s.regs r) (s.regs r)) = b)
    (inside : ∀ u, s.Quiet u → way ⟨u, calls⟩)
    (rest : ∀ u, u.regs = s.regs → u.mem = s.mem → u.pc = (if b then q else s.pc + 2) →
      M.Ends way last made ⟨u, calls⟩) : M.Ends way last made ⟨s, calls⟩ := by
  subst known
  refine .outcome tests rfl (inside s (.refl s)) ?_
  refine .jump jumps target rfl (inside _ ⟨rfl, rfl, rfl⟩) ?_
  exact rest _ rfl rfl rfl

theorem Ends.call {l : String} (fetch : M.code[s.pc]? = some (.call l))
    (target : position? l M.lines = some q) (inside : way ⟨s, calls⟩)
    (rest : M.Ends way last made
      ⟨(s.push (M.layout.address (s.pc + 1))).goto q, ⟨l, s⟩ :: calls⟩) :
    M.Ends way last made ⟨s, calls⟩ :=
  .only inside (asked_eq_nil fetch (by simp)) (fun _ => step_call_iff fetch target) rest

theorem Ends.ret {fr : Frame} (fetch : M.code[s.pc]? = some .ret)
    (address : ∀ a < M.code.length, ∀ b < M.code.length,
      M.layout.address a = M.layout.address b → a = b)
    (into : q < M.code.length) (back : M.layout.address q = s.top) (inside : way ⟨s, fr :: calls⟩)
    (rest : M.Ends way last made ⟨s.pop.goto q, calls⟩) :
    M.Ends way last made ⟨s, fr :: calls⟩ :=
  .only inside (asked_eq_nil fetch (by simp)) (fun _ => step_ret_iff fetch address into back) rest

/-- A system call that returns, whatever the kernel answers. -/
theorem Ends.syscall (fetch : M.code[s.pc]? = some .syscall)
    (returns : s.regs .rax ≠ 60 ∧ s.regs .rax ≠ 231) (inside : way ⟨s, calls⟩)
    (rest : ∀ t, Kernel s t → M.Ends way last (made ++ [s]) ⟨t.goto (s.pc + 1), calls⟩) :
    M.Ends way last made ⟨s, calls⟩ := by
  have asks : M.asked ⟨s, calls⟩ = [s] := if_pos fetch
  refine .next inside ⟨_, .syscall fetch ⟨returns, fun _ _ _ => rfl, fun _ => rfl, rfl⟩⟩ ?_
  intro d step
  obtain ⟨t, answer, rfl⟩ := step.of_syscall fetch
  rw [asks]
  exact rest t answer

/-! ## Routines in memory -/

/-- The code of a routine stands from a position on, and its labels lead into it. -/
structure Carries (M : Image) (r : Routine) (e : Nat) : Prop where
  code : M.Holds e (instrsOf r.lines)
  label : ∀ l j, position? l r.lines = some j → position? l M.lines = some (e + j)

/-- Some instructions of a routine, behind its first `k`. -/
theorem Carries.part {r : Routine} {e : Nat} (c : M.Carries r e) (k n : Nat)
    (le : k ≤ (instrsOf r.lines).length) :
    M.Holds (e + k) (((instrsOf r.lines).drop k).take n) := by
  have code := c.code
  rw [← List.take_append_drop k (instrsOf r.lines)] at code
  have later := code.right
  rw [List.length_take, Nat.min_eq_left le, ← List.take_append_drop n (List.drop k _)] at later
  exact later.left

theorem Holds.get {is : List Instr} (h : M.Holds q is) {k : Nat} (found : is[k]? = some i) :
    M.code[q + k]? = some i := by
  obtain ⟨before, after, eq, rfl⟩ := h
  obtain ⟨lt, -⟩ := List.getElem?_eq_some_iff.1 found
  rw [eq, List.append_assoc, List.getElem?_append_right (Nat.le_add_right ..),
    Nat.add_sub_cancel_left, List.getElem?_append_left lt]
  exact found

theorem Carries.fetch {r : Routine} {e : Nat} (c : M.Carries r e) {k : Nat}
    (found : (instrsOf r.lines)[k]? = some i) : M.code[e + k]? = some i := c.code.get found

end Image

end Asm

open Asm

theorem RoutineAt.carries {M : Image} {whole : List MarkedLine} {r : Routine} {e : Nat}
    (here : RoutineAt whole r e) (lines : M.lines = whole.map Prod.fst)
    (labels : (labelsOf (whole.map Prod.fst)).Nodup) : M.Carries r e := by
  have own : (unmarked r.lines).map Prod.fst = r.lines := by simp [unmarked, Function.comp_def]
  refine ⟨?_, fun l j found => ?_⟩
  · obtain ⟨before, after, eq, rfl⟩ := here.lines
    refine ⟨(itemsOf before).map Prod.fst, (itemsOf after).map Prod.fst, ?_, List.length_map _⟩
    rw [Image.code, lines, instrsOf_map_fst, eq, itemsOf_append, itemsOf_append, List.map_append,
      List.map_append, ← instrsOf_map_fst (unmarked r.lines), own]
  · rw [lines]
    exact here.lines.position labels (by rwa [own])

/-- A program carries the routines, where their names lead to. -/
theorem Program.carries {M : Image} {p : Program} {tables : Tables} {limits : Limits}
    {text file : String} (ok : Program.ofText limits text file = .ok (p, tables))
    (lines : M.lines = p.lines tables limits) {r : Routine} (mem : r ∈ Routine.all) :
    ∃ e, position? r.name M.lines = some e ∧ M.Carries r e := by
  obtain ⟨scanned, -, read⟩ := Program.ofText_eq_ok ok
  have marked : M.lines = (p.marked tables limits).map Prod.fst := by rw [lines, p.marked_lines]
  obtain ⟨e, here⟩ := Program.routineAt read mem
  exact ⟨e, marked ▸ here.label, here.carries marked (Program.nodup_marked read)⟩

end PinnedStack
