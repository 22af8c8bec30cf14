import PinnedStack.Proofs.Emission.Places
import PinnedStack.Proofs.Machine.Keeping

/-!
# Runs between marks

* `Marked` — a position with a mark.
* `Image.Forced` — one configuration leads to another without choice and past no mark.
* `Image.Reaches` — every sound run to a mark passes through a configuration of some kind first.
* `Forced.reaches` — what is forced happens, and nothing else does.
-/

namespace PinnedStack

/-- Some mark holds in front of the instruction at a position. -/
def Marked (whole : List MarkedLine) (q : Nat) : Prop := ∃ f h, Cut whole q f h

theorem Inside.not_marked {whole : List MarkedLine} {q : Nat}
    (inside : Inside whole q) : ¬ Marked whole q := by
  rintro ⟨f, h, cut⟩
  exact inside.not_cut cut

namespace Asm

/-- One configuration leads to another without choice and past no mark. -/
inductive Image.Forced (M : Image) (whole : List MarkedLine) : Config → Config → Prop where
  | refl {c : Config} : Forced M whole c c
  | head {c d e : Config} (inside : Inside whole c.state.pc) (only : ∀ x, M.Step c x ↔ x = d)
      (rest : Forced M whole d e) : Forced M whole c e

/-- Every sound run of up to `n` steps to a mark passes through a configuration of a kind first. -/
def Image.Reaches (M : Image) (whole : List MarkedLine) (Q : Config → Prop) (n : Nat) (c : Config) :
    Prop :=
  ∀ k ≤ n, ∀ e, M.Runs k c e → Marked whole e.state.pc → ∃ j ≤ k, ∃ d, Q d ∧ M.Runs j d e

namespace Image

variable {M : Image} {whole : List MarkedLine} {c d e : Config} {Q : Config → Prop} {n : Nat}

theorem Forced.trans (h : M.Forced whole c d) (h' : M.Forced whole d e) : M.Forced whole c e := by
  induction h with
  | refl => exact h'
  | head inside only _ ih => exact .head inside only (ih h')

theorem Reaches.here (done : Q c) : M.Reaches whole Q n c :=
  fun k _ _ run _ => ⟨k, Nat.le_refl k, c, done, run⟩

theorem Reaches.mono {m : Nat} (h : M.Reaches whole Q n c) (le : m ≤ n) : M.Reaches whole Q m c :=
  fun k kle => h k (Nat.le_trans kle le)

theorem Reaches.imp {Q' : Config → Prop} (h : M.Reaches whole Q n c) (imp : ∀ d, Q d → Q' d) :
    M.Reaches whole Q' n c := by
  intro k le e run marked
  obtain ⟨j, less, d, done, run⟩ := h k le e run marked
  exact ⟨j, less, d, imp d done, run⟩

/-- Every sound run to a mark goes on from a position without one. -/
theorem Reaches.step (inside : Inside whole c.state.pc)
    (next : ∀ d, M.Sound c d → ∀ m < n, M.Reaches whole Q m d) : M.Reaches whole Q n c := by
  intro k le e run marked
  cases run with
  | refl => exact absurd marked inside.not_marked
  | @head m _ d _ one rest =>
    obtain ⟨j, less, d, done, run⟩ := next d one m le m (Nat.le_refl m) e rest marked
    exact ⟨j, Nat.le_succ_of_le less, d, done, run⟩

/-- Sound runs go where they are forced to, and `rsp` is on its stack there. -/
theorem Forced.reaches (h : M.Forced whole c d) (on : c.state.OnStack M.layout)
    (next : d.state.OnStack M.layout → M.Reaches whole Q n d) : M.Reaches whole Q n c := by
  induction h generalizing n with
  | refl => exact next on
  | head inside only _ ih =>
    refine .step inside fun x sound m less => ?_
    obtain rfl := (only x).1 sound.step
    exact ih sound.onStack fun on => (next on).mono (Nat.le_of_lt less)

/-! ## Instructions -/

theorem fetch {q : Nat} {i : Instr} {m : Option Mark} (lines : M.lines = whole.map Prod.fst)
    (found : (itemsOf whole)[q]? = some (i, m)) : M.code[q]? = some i := by
  rw [code, lines, instrsOf_map_fst, List.getElem?_map, found]
  rfl

/-- An instruction with an effect of its own goes on to the next one. -/
theorem Forced.effect {s t : State} {calls : List Frame} {i : Instr}
    (lines : M.lines = whole.map Prod.fst) (found : (itemsOf whole)[s.pc]? = some (i, none))
    (done : i.effect M.layout s = some t)
    (rest : M.Forced whole ⟨t.goto (s.pc + 1), calls⟩ e) : M.Forced whole ⟨s, calls⟩ e :=
  .head ⟨i, found⟩ (fun _ => step_iff (fetch lines found) done) rest

/-! ## Code without marks -/

/-- The effects of instructions in order. -/
def effects (L : Layout) : List Instr → State → Option State
  | [], s => some s
  | i :: is, s => (i.effect L s).bind fun t => effects L is (t.goto (s.pc + 1))

section Reaches

variable {s : State} {calls : List Frame} {q : Nat} {rest : List MarkedLine}

/-- Instructions in a row. -/
theorem Reaches.straight {is : List Instr} (lines : M.lines = whole.map Prod.fst)
    (placed : Placed whole s.pc (unmarked (instrs is) ++ rest)) (plain : ∀ i ∈ is, i.plain = true)
    (next : ∀ t, effects M.layout is s = some t → M.Reaches whole Q n ⟨t, calls⟩) :
    M.Reaches whole Q n ⟨s, calls⟩ := by
  induction is generalizing s n with
  | nil => exact next s rfl
  | cons i is ih =>
    refine .step ⟨i, placed.first⟩ fun d sound m less => ?_
    obtain ⟨t, done, rfl⟩ := sound.step.of_plain (fetch lines placed.first)
      (plain i (List.mem_cons_self ..))
    refine ih placed.next (fun i mem => plain i (List.mem_cons_of_mem _ mem)) fun u effects => ?_
    refine (next u ?_).mono (Nat.le_of_lt less)
    rw [Image.effects, done]
    exact effects

theorem Reaches.jump {c : Cond} {l : String} (lines : M.lines = whole.map Prod.fst)
    (found : (itemsOf whole)[s.pc]? = some (.jump c l, none))
    (target : position? l (whole.map Prod.fst) = some q)
    (taken : s.Allows c true → M.Reaches whole Q n ⟨s.goto q, calls⟩)
    (passed : s.Allows c false → M.Reaches whole Q n ⟨s.goto (s.pc + 1), calls⟩) :
    M.Reaches whole Q n ⟨s, calls⟩ := by
  refine .step ⟨_, found⟩ fun d sound m less => ?_
  rcases sound.step.of_jump (fetch lines found) (lines ▸ target) with ⟨allows, rfl⟩ | ⟨allows, rfl⟩
  · exact (taken allows).mono (Nat.le_of_lt less)
  · exact (passed allows).mono (Nat.le_of_lt less)

theorem Reaches.jmp {l : String} (lines : M.lines = whole.map Prod.fst)
    (found : (itemsOf whole)[s.pc]? = some (.jmp l, none))
    (target : position? l (whole.map Prod.fst) = some q)
    (next : M.Reaches whole Q n ⟨s.goto q, calls⟩) : M.Reaches whole Q n ⟨s, calls⟩ := by
  refine .step ⟨_, found⟩ fun d sound m less => ?_
  obtain rfl := (step_jmp_iff (fetch lines found) (lines ▸ target)).1 sound.step
  exact next.mono (Nat.le_of_lt less)

end Reaches

theorem effects_pc {L : Layout} {is : List Instr} {s t : State} (done : effects L is s = some t) :
    t.pc = s.pc + is.length := by
  induction is generalizing s with
  | nil =>
    cases done
    rfl
  | cons i is ih =>
    obtain ⟨u, -, rest⟩ := Option.bind_eq_some_iff.1 done
    rw [ih rest, State.goto_pc, List.length_cons]
    omega

theorem effects_quiet {L : Layout} {is : List Instr} {s t : State} (done : effects L is s = some t)
    (quiet : ∀ i ∈ is, i.quiet = true) : s.Quiet t := by
  induction is generalizing s with
  | nil =>
    cases done
    exact .refl _
  | cons i is ih =>
    obtain ⟨u, one, rest⟩ := Option.bind_eq_some_iff.1 done
    have first := Instr.quiet_effect (quiet i (List.mem_cons_self ..)) one
    have others := ih rest fun i mem => quiet i (List.mem_cons_of_mem _ mem)
    exact ⟨others.mem.trans first.mem, others.rsp.trans first.rsp, others.r15.trans first.r15⟩

end Image

end Asm

end PinnedStack
