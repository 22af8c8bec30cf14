import PinnedStack.Proofs.Emission.Sites

/-!
# Where the parts of a program stand

* `Func.front`, `Func.ending` — the instructions in front of a body and behind it.
* `Func.Owns` — the pin slots that a body may change.
* `Stands` — where the label, the body and the ending of a function are; `Program.stands`.
* `Program.sited` — every marked position of a program is a `Site`.
* `RoutineAt` — where a routine is; `Program.routineAt`.
-/

namespace PinnedStack

open Asm

/-- The functions and the main code. -/
def Program.bodies (p : Program) : List Func := p.functions ++ [p.main]

def Func.isMain (f : Func) : Bool := f.label == "_start"

/-- The instructions in front of a body. -/
def Func.front (f : Func) : List Instr := if f.isMain then startCode else f.entering

/-- The instructions behind a body. -/
def Func.ending (f : Func) : List Instr := if f.isMain then exitCode else f.leaving

/-- The pin slots that a body may change: those that its function saves, and any in the main code. -/
def Func.Owns (f : Func) (capacity slot : Nat) : Prop :=
  slot < capacity ∧ (f.isMain = false → slot ∈ f.slots)

/-- All functions keep to their contracts. -/
def Program.Steady (p : Program) : Prop := ∀ f ∈ p.bodies, f.Steady

/-- A site of one of the bodies. -/
def Program.SiteAt (p : Program) (tables : Tables) (limits : Limits) (q : Nat) (f : Func) (h : Nat) :
    Prop :=
  f ∈ p.bodies ∧ Site (p.marked tables limits) p.Steady (p.functions.map Func.call)
    (f.Owns limits.pinCapacity) f f.ending q h

/-- A function stands at a position, where its label leads to. -/
structure Stands (whole : List MarkedLine) (f : Func) (e : Nat) : Prop where
  label : position? f.label (whole.map Prod.fst) = some e
  front : Placed whole e (unmarked (instrs f.front))
  body : ∃ rest, Placed whole (e + f.front.length) (markedOf f f.body f.contract.takes ++ rest)
    ∧ ∀ steady, Opens steady rest f f.after
  ending : Placed whole (e + f.front.length + extentOf f.body)
    (markFirst (f, f.after) (instrs f.ending))

/-- A routine stands at a position, where its name leads to. -/
structure RoutineAt (whole : List MarkedLine) (r : Routine) (e : Nat) : Prop where
  label : position? r.name (whole.map Prod.fst) = some e
  lines : Placed whole e (unmarked r.lines)

/-! ## Functions -/

@[simp] theorem itemsOf_unmarked (is : List Instr) :
    itemsOf (unmarked (instrs is)) = is.map (·, none) := by
  induction is with
  | nil => rfl
  | cons i is ih => exact congrArg ((i, none) :: ·) ih

theorem Func.isMain_of_mem {p : Program} {capacity : Nat} (formed : p.Formed capacity) {f : Func}
    (mem : f ∈ p.functions) : f.isMain = false := by
  have label : f.label ∈ (List.range p.functions.length).map functionLabel :=
    formed.labels ▸ List.mem_map_of_mem mem
  obtain ⟨n, -, eq⟩ := List.mem_map.1 label
  have initial := initialOf_functionLabel n
  rw [eq] at initial
  refine beq_eq_false_iff_ne.2 fun start => ?_
  rw [start] at initial
  cases initial

theorem Func.isMain_main {p : Program} {capacity : Nat} (formed : p.Formed capacity) :
    p.main.isMain = true := by
  simp [isMain, formed.start]

section Stands

variable {whole : List MarkedLine} {f : Func} {e : Nat}

theorem Placed.stands (placed : Placed whole e f.marked)
    (labels : (labelsOf (whole.map Prod.fst)).Nodup) (inner : f.isMain = false) :
    Stands whole f e := by
  have front : f.front = f.entering := by simp [Func.front, inner]
  have ending : f.ending = f.leaving := by simp [Func.ending, inner]
  rw [Func.marked, List.append_assoc, List.append_assoc] at placed
  have label := (placed.skip rfl).skip rfl
  have start : Placed whole e (unmarked (instrs f.entering) ++ _) := label.skip rfl
  have body := start.right
  rw [itemsOf_unmarked, List.length_map, ← front] at body
  have last := body.right
  rw [length_itemsOf_markedOf, ← ending] at last
  refine ⟨label.label labels, front ▸ start.left, ⟨_, body, fun _ => ?_⟩, last⟩
  exact ⟨_, _, _, rfl, fun _ => rfl⟩

theorem Placed.stands_main (placed : Placed whole e (markedEntry f))
    (labels : (labelsOf (whole.map Prod.fst)).Nodup) (start : f.label = "_start") :
    Stands whole f e := by
  have main : f.isMain = true := by simp [Func.isMain, start]
  have front : f.front = startCode := by simp [Func.front, main]
  have ending : f.ending = exitCode := by simp [Func.ending, main]
  rw [markedEntry, List.append_assoc, List.append_assoc] at placed
  have label := placed.skip rfl
  have first : Placed whole e (unmarked (instrs startCode) ++ _) := label.skip rfl
  have body := first.right
  rw [itemsOf_unmarked, List.length_map, ← front] at body
  have last := body.right.skip rfl
  rw [length_itemsOf_markedOf, ← ending] at last
  refine ⟨start ▸ label.label labels, front ▸ first.left, ⟨_, body, fun _ => ?_⟩, last⟩
  exact ⟨_, _, _, rfl, fun _ => rfl⟩

end Stands

/-! ## Programs -/

section Programs

variable {limits : Limits} {text : Scanned} {p : Program} {tables : Tables}

theorem Program.nodup_marked (ok : Program.ofTokens limits text = .ok (p, tables)) :
    (labelsOf ((p.marked tables limits).map Prod.fst)).Nodup := by
  rw [p.marked_lines]
  exact nodup_labels ok

/-- The marked lines from the routines on. -/
def Program.parts (p : Program) (tables : Tables) (limits : Limits) : List MarkedLine :=
  unmarked (Routine.all.flatMap Routine.block) ++ (markedEntry p.main
    ++ (p.functions.flatMap Func.marked
      ++ (unmarked tables.literalLines ++ unmarked (tables.spaceLines limits))))

theorem Program.marked_eq (p : Program) (tables : Tables) (limits : Limits) :
    p.marked tables limits = unmarked [.remark "Stoat compiler - generated NASM (x86-64 Linux)",
      .bits64, .blank, .sectionStart ".text", .globalLabel "_start"] ++ p.parts tables limits := by
  simp only [marked, parts, List.append_assoc]

theorem Program.placed (p : Program) (tables : Tables) (limits : Limits) :
    Placed (p.marked tables limits) 0 (p.parts tables limits) :=
  ⟨_, [], by rw [marked_eq, List.append_nil], rfl⟩

/-- The functions of a program stand one behind the other. -/
theorem Placed.functions {whole rest : List MarkedLine} {q : Nat} {fs : List Func}
    (placed : Placed whole q (fs.flatMap Func.marked ++ rest)) {f : Func} (mem : f ∈ fs) :
    ∃ e, Placed whole e f.marked := by
  obtain ⟨before, after, rfl⟩ := List.append_of_mem mem
  rw [List.flatMap_append, List.flatMap_cons] at placed
  exact ⟨_, placed.left.right.left⟩

theorem Program.stands (ok : Program.ofTokens limits text = .ok (p, tables)) {f : Func}
    (mem : f ∈ p.bodies) : ∃ e, Stands (p.marked tables limits) f e := by
  have formed := formed_of_ofTokens ok
  have labels := nodup_marked ok
  have placed := p.placed tables limits
  rcases List.mem_append.1 mem with mem | mem
  · obtain ⟨e, here⟩ := placed.right.right.functions mem
    exact ⟨e, here.stands labels (Func.isMain_of_mem formed mem)⟩
  · obtain rfl := List.mem_singleton.1 mem
    exact ⟨_, placed.right.left.stands_main labels formed.start⟩

theorem Program.routineAt (ok : Program.ofTokens limits text = .ok (p, tables)) {r : Routine}
    (mem : r ∈ Routine.all) : ∃ e, RoutineAt (p.marked tables limits) r e := by
  have labels := nodup_marked ok
  obtain ⟨before, after, eq⟩ := List.append_of_mem mem
  have placed := (p.placed tables limits).left
  have split : unmarked (Routine.all.flatMap Routine.block)
      = unmarked (before.flatMap Routine.block) ++ (unmarked r.block
        ++ unmarked (after.flatMap Routine.block)) := by
    simp [eq, unmarked, List.map_flatMap]
  rw [split] at placed
  have label := (placed.right.left.skip rfl).skip rfl
  exact ⟨_, label.label labels, label.skip rfl⟩

section Sited

variable {f : Func} {q : Nat} {rest : List MarkedLine}

theorem Program.sited_body (ok : Program.ofTokens limits text = .ok (p, tables)) (mem : f ∈ p.bodies)
    {first stop : Nat} (nested : Scoped (p.functions.map Func.call) [] first stop f.body)
    (own : ∀ slot, first ≤ slot → slot < stop → f.Owns limits.pinCapacity slot)
    (placed : Placed (p.marked tables limits) q (markedOf f f.body f.contract.takes ++ rest))
    (opens : Opens p.Steady rest f f.after) :
    Sited (p.SiteAt tables limits) q (markedOf f f.body f.contract.takes) := by
  have sited : SitedIn (p.marked tables limits) p.Steady (p.functions.map Func.call)
      (f.Owns limits.pinCapacity) f f.ending q (markedOf f f.body f.contract.takes) :=
    nested.sited (nodup_marked ok) placed opens (by simp) own fun steady => (steady f mem).body
  refine Sited.mono (fun q g h ⟨eq, site⟩ => ?_) sited
  subst eq
  exact ⟨mem, site⟩

theorem Program.sited_function (ok : Program.ofTokens limits text = .ok (p, tables))
    (mem : f ∈ p.functions) (placed : Placed (p.marked tables limits) q f.marked) :
    Sited (p.SiteAt tables limits) q f.marked := by
  have formed := formed_of_ofTokens ok
  have inner := Func.isMain_of_mem formed mem
  have among : f ∈ p.bodies := List.mem_append_left _ mem
  have own : ∀ slot, f.firstSlot ≤ slot → slot < f.endSlot → f.Owns limits.pinCapacity slot := by
    intro slot low high
    refine ⟨Nat.lt_of_lt_of_le high (formed.functions f mem).room, fun _ => ?_⟩
    rw [Func.slots, List.mem_range'_1]
    omega
  rw [Func.marked, List.append_assoc, List.append_assoc] at placed ⊢
  have body := placed.right.right
  refine .append (.unmarked _) (.append (.unmarked _) (.append ?_ (.markFirst _ ⟨among, ?_⟩)))
  · exact sited_body ok among (formed.functions f mem).body own body ⟨_, _, _, rfl, fun _ => rfl⟩
  · refine .leave ?_ rfl
    rw [Func.ending, inner]
    exact body.right

theorem Program.sited_main (ok : Program.ofTokens limits text = .ok (p, tables))
    (placed : Placed (p.marked tables limits) q (markedEntry p.main)) :
    Sited (p.SiteAt tables limits) q (markedEntry p.main) := by
  have formed := formed_of_ofTokens ok
  have main := Func.isMain_main formed
  have among : p.main ∈ p.bodies := List.mem_append_right _ (List.mem_singleton_self _)
  have own : ∀ slot, 0 ≤ slot → slot < limits.pinCapacity →
      p.main.Owns limits.pinCapacity slot := by
    intro slot _ high
    refine ⟨high, fun inner => ?_⟩
    rw [main] at inner
    cases inner
  rw [markedEntry, List.append_assoc, List.append_assoc] at placed ⊢
  have body := placed.right.right
  refine .append (.unmarked _) (.append (.unmarked _) (.append ?_
    (.skip rfl (.markFirst _ ⟨among, ?_⟩))))
  · exact sited_body ok among formed.main own body ⟨_, _, _, rfl, fun _ => rfl⟩
  · refine .leave ?_ rfl
    rw [Func.ending, main]
    exact body.right.skip rfl

theorem Sited.functions {whole : List MarkedLine} {P : Nat → Func → Nat → Prop} {fs : List Func}
    (placed : Placed whole q (fs.flatMap Func.marked ++ rest))
    (each : ∀ f ∈ fs, ∀ e, Placed whole e f.marked → Sited P e f.marked) :
    Sited P q (fs.flatMap Func.marked) := by
  induction fs generalizing q with
  | nil => exact .nil
  | cons f fs ih =>
    rw [List.flatMap_cons, List.append_assoc] at placed
    rw [List.flatMap_cons]
    exact .append (each f (List.mem_cons_self ..) q placed.left)
      (ih placed.right fun g mem => each g (List.mem_cons_of_mem _ mem))

/-- **Every marked position of a program is a site** of the function in its mark. -/
theorem Program.sited (ok : Program.ofTokens limits text = .ok (p, tables)) {h : Nat}
    (cut : Cut (p.marked tables limits) q f h) : p.SiteAt tables limits q f h := by
  have placed := p.placed tables limits
  have all : Sited (p.SiteAt tables limits) 0 (p.parts tables limits) :=
    .append (.unmarked _) (.append (sited_main ok placed.right.left)
      (.append (.functions placed.right.right fun g mem e here => sited_function ok mem here)
        (.append (.unmarked _) (.unmarked _))))
  obtain ⟨i, found⟩ := cut
  rw [marked_eq] at found
  have site := all q i f h found
  rwa [Nat.zero_add] at site

end Sited

end Programs

end PinnedStack
