import PinnedStack.Proofs.Emission.Marks
import PinnedStack.Proofs.Machine.Run

/-!
# Where emitted lines stand

* `itemsOf` — the marked instructions of lines. `Placed` — a part of the lines with the number of
  instructions in front of it; `Placed.at`, `Placed.label` — what is found there.
* `Cut` — a position with the mark that holds in front of it. `Inside` — a position without one.
* `Leads`, `Opens` — a position, and lines, where a function goes on at a level. `Opens.nodes` — what
  stands before nodes goes on at their level, also where they are empty.
* `Occurs` — a node of a body with its level and the instructions in front of it.
-/

namespace PinnedStack

open Asm

/-! ## Marked instructions -/

/-- The instruction of a line with its mark. -/
def itemOf : MarkedLine → Option (Instr × Option Mark)
  | (.instr i, m) => some (i, m)
  | _ => none

/-- The instructions of lines with their marks. -/
def itemsOf (lines : List MarkedLine) : List (Instr × Option Mark) := lines.filterMap itemOf

@[simp] theorem itemsOf_nil : itemsOf [] = [] := rfl

@[simp] theorem itemsOf_append (a b : List MarkedLine) :
    itemsOf (a ++ b) = itemsOf a ++ itemsOf b := by
  simp [itemsOf]

@[simp] theorem itemsOf_instr (i : Instr) (m : Option Mark) (lines : List MarkedLine) :
    itemsOf ((.instr i, m) :: lines) = (i, m) :: itemsOf lines := rfl

@[simp] theorem itemsOf_label (l : String) (m : Option Mark) (lines : List MarkedLine) :
    itemsOf ((.label l, m) :: lines) = itemsOf lines := rfl

@[simp] theorem itemsOf_comment (t : String) (m : Option Mark) (lines : List MarkedLine) :
    itemsOf ((.comment t, m) :: lines) = itemsOf lines := rfl

theorem instrsOf_map_fst (lines : List MarkedLine) :
    instrsOf (lines.map Prod.fst) = (itemsOf lines).map Prod.fst := by
  induction lines with
  | nil => rfl
  | cons l lines ih =>
    obtain ⟨line, m⟩ := l
    cases line with
    | instr i => simp [ih]
    | _ => exact ih

/-! ## Places -/

/-- A part of the lines stands behind `q` instructions. -/
def Placed (whole : List MarkedLine) (q : Nat) (part : List MarkedLine) : Prop :=
  ∃ before after, whole = before ++ part ++ after ∧ q = (itemsOf before).length

/-- In front of the instruction at a position a mark holds. -/
def Cut (whole : List MarkedLine) (q : Nat) (f : Func) (h : Nat) : Prop :=
  ∃ i, (itemsOf whole)[q]? = some (i, some (f, h))

/-- No mark holds in front of the instruction at a position. -/
def Inside (whole : List MarkedLine) (q : Nat) : Prop :=
  ∃ i, (itemsOf whole)[q]? = some (i, none)

section Placed

variable {whole a b part rest : List MarkedLine} {q : Nat}

theorem Placed.move {r : Nat} (h : Placed whole q part) (eq : q = r) : Placed whole r part := eq ▸ h

theorem Placed.left (h : Placed whole q (a ++ b)) : Placed whole q a := by
  obtain ⟨before, after, rfl, rfl⟩ := h
  exact ⟨before, b ++ after, by simp, rfl⟩

theorem Placed.right (h : Placed whole q (a ++ b)) : Placed whole (q + (itemsOf a).length) b := by
  obtain ⟨before, after, rfl, rfl⟩ := h
  exact ⟨before ++ a, after, by simp, by simp⟩

theorem Placed.next {i : Instr} {m : Option Mark} (h : Placed whole q ((.instr i, m) :: rest)) :
    Placed whole (q + 1) rest := by
  rw [← List.singleton_append] at h
  exact h.right

theorem Placed.skip {l : MarkedLine} (h : Placed whole q (l :: rest)) (none : itemOf l = none) :
    Placed whole q rest := by
  rw [← List.singleton_append] at h
  have right := h.right
  simpa [itemsOf, none] using right

theorem Placed.drop (h : Placed whole q part) (k : Nat) :
    Placed whole (q + (itemsOf (part.take k)).length) (part.drop k) := by
  rw [← List.take_append_drop k part] at h
  exact h.right

/-- What is found in a part is found where the part stands. -/
theorem Placed.at (h : Placed whole q part) {j : Nat} (lt : j < (itemsOf part).length) :
    (itemsOf whole)[q + j]? = (itemsOf part)[j]? := by
  obtain ⟨before, after, rfl, rfl⟩ := h
  simp only [itemsOf_append, List.append_assoc]
  rw [List.getElem?_append_right (Nat.le_add_right ..), Nat.add_sub_cancel_left,
    List.getElem?_append_left lt]

theorem Placed.first {i : Instr} {m : Option Mark} (h : Placed whole q ((.instr i, m) :: rest)) :
    (itemsOf whole)[q]? = some (i, m) := by
  have found := h.at (j := 0) (by simp)
  simpa using found

/-- A label that is defined once is found where it stands. -/
theorem Placed.label {l : String} {m : Option Mark} (h : Placed whole q ((.label l, m) :: rest))
    (nodup : (labelsOf (whole.map Prod.fst)).Nodup) :
    position? l (whole.map Prod.fst) = some q := by
  obtain ⟨before, after, rfl, rfl⟩ := h
  induction before with
  | nil => simp [position?]
  | cons line before ih =>
    obtain ⟨line, other⟩ := line
    have inner : (labelsOf ((before ++ (.label l, m) :: rest ++ after).map Prod.fst)).Nodup := by
      refine nodup.sublist ?_
      simp only [List.cons_append, List.map_cons, List.append_assoc]
      exact (List.sublist_cons_self _ _).filterMap _
    have found := ih inner
    cases line with
    | instr i =>
      simp only [List.cons_append, List.map_cons, position?, found, itemsOf_instr,
        List.length_cons, Option.map_some]
    | label other =>
      have differs : other ≠ l := by
        rintro rfl
        simp [labelsOf_append] at nodup
      simp only [List.cons_append, List.map_cons, position?, if_neg differs, itemsOf_label]
      exact found
    | _ => exact found

/-- A label inside a part is found there. -/
theorem Placed.position {l : String} {j : Nat} (h : Placed whole q part)
    (nodup : (labelsOf (whole.map Prod.fst)).Nodup)
    (found : position? l (part.map Prod.fst) = some j) :
    position? l (whole.map Prod.fst) = some (q + j) := by
  induction part generalizing q j with
  | nil => cases found
  | cons line part ih =>
    obtain ⟨line, m⟩ := line
    cases line with
    | label other =>
      by_cases eq : other = l
      · subst eq
        simp only [List.map_cons, position?, if_pos] at found
        cases found
        exact h.label nodup
      · simp only [List.map_cons, position?, if_neg eq] at found
        exact ih (h.skip rfl) found
    | instr i =>
      obtain ⟨k, inner, rfl⟩ := Option.map_eq_some_iff.1 found
      rw [ih h.next inner, Nat.add_assoc, Nat.add_comm 1]
    | _ => exact ih (h.skip rfl) found

end Placed

/-! ## Marks in front of lines -/

theorem Cut.unique {whole : List MarkedLine} {q h j : Nat} {f g : Func} (hf : Cut whole q f h)
    (hg : Cut whole q g j) : f = g ∧ h = j := by
  obtain ⟨i, hi⟩ := hf
  obtain ⟨k, hk⟩ := hg
  rw [hi] at hk
  cases hk
  exact ⟨rfl, rfl⟩

theorem Inside.not_cut {whole : List MarkedLine} {q h : Nat} {f : Func} (inside : Inside whole q) :
    ¬ Cut whole q f h := by
  rintro ⟨i, hi⟩
  obtain ⟨k, hk⟩ := inside
  rw [hi] at hk
  cases hk

/-- A mark of a function holds at a position, that of the given level where levels are steady. -/
def Leads (whole : List MarkedLine) (steady : Prop) (q : Nat) (f : Func) (h : Nat) : Prop :=
  ∃ j, Cut whole q f j ∧ (steady → j = h)

/-- The first instruction of lines has a mark of a function, that of the given level where levels are
steady. -/
def Opens (steady : Prop) (lines : List MarkedLine) (f : Func) (h : Nat) : Prop :=
  ∃ i j rest, itemsOf lines = (i, some (f, j)) :: rest ∧ (steady → j = h)

theorem Leads.congr {whole : List MarkedLine} {steady : Prop} {q h j : Nat} {f : Func}
    (leads : Leads whole steady q f h) (eq : steady → h = j) : Leads whole steady q f j := by
  obtain ⟨k, cut, same⟩ := leads
  exact ⟨k, cut, fun s => (same s).trans (eq s)⟩

theorem Placed.leads {whole part : List MarkedLine} {steady : Prop} {q h : Nat} {f : Func}
    (placed : Placed whole q part) (opens : Opens steady part f h) : Leads whole steady q f h := by
  obtain ⟨i, j, rest, eq, same⟩ := opens
  have found := placed.at (j := 0) (by simp [eq])
  exact ⟨j, ⟨i, by simpa [eq] using found⟩, same⟩

section Opens

variable {steady : Prop} {f : Func} {h : Nat} {rest : List MarkedLine}

theorem Opens.congr {j : Nat} (opens : Opens steady rest f h) (eq : steady → h = j) :
    Opens steady rest f j := by
  obtain ⟨i, k, tail, items, same⟩ := opens
  exact ⟨i, k, tail, items, fun s => (same s).trans (eq s)⟩

theorem Opens.instr (i : Instr) : Opens steady ((.instr i, some (f, h)) :: rest) f h :=
  ⟨i, h, _, rfl, fun _ => rfl⟩

theorem Opens.skip {l : MarkedLine} (opens : Opens steady rest f h) (none : itemOf l = none) :
    Opens steady (l :: rest) f h := by
  obtain ⟨i, j, tail, eq, same⟩ := opens
  exact ⟨i, j, tail, by simpa [itemsOf, none] using eq, same⟩

theorem Opens.code {is : List Instr} (opens : Opens steady rest f (codeAfter is h)) :
    Opens steady (markCode f is h ++ rest) f h := by
  cases is with
  | nil => exact opens
  | cons i is => exact .instr i

mutual

/-- In front of a node its level holds, also where the node is empty. -/
theorem Opens.node {steady : Prop} {f : Func} {rest : List MarkedLine} : (n : Node) → {h : Nat} →
    Opens steady rest f (n.after h) → Opens steady (n.marked f h ++ rest) f h
  | .op _ _, _, opens => opens.code
  | .call _ _, _, _ => (Opens.instr _).skip rfl
  | .ifTrue _ _ _, _, _ => (Opens.instr _).skip rfl
  | .ifFalse _ _ _, _, _ => (Opens.instr _).skip rfl
  | .ifElse _ _ _ _, _, _ => (Opens.instr _).skip rfl
  | .loop p condition _ _ _, h, _ => by
    simp only [Node.marked, List.cons_append, List.append_assoc]
    refine .skip (.code (.skip ?_ rfl)) rfl
    rw [codeAfter_storeCode]
    refine .code ?_
    rw [codeAfter_pushCode]
    exact Opens.nodes condition (.instr _)

/-- In front of nodes their level holds. -/
theorem Opens.nodes {steady : Prop} {f : Func} {rest : List MarkedLine} : (nodes : List Node) →
    {h : Nat} → Opens steady rest f (levelOf nodes h) →
    Opens steady (markedOf f nodes h ++ rest) f h
  | [], _, opens => opens
  | n :: ns, _, opens => by
    rw [markedOf, List.append_assoc]
    exact Opens.node n (Opens.nodes ns opens)

end

end Opens

/-! ## Nodes in bodies -/

/-- A node stands at level `h` in nodes that start at a level, behind a number of instructions. -/
inductive Occurs (n : Node) (h : Nat) : List Node → Nat → Nat → Prop where
  | here {nodes : List Node} : Occurs n h (n :: nodes) h 0
  | later {m : Node} {nodes : List Node} {l k : Nat} (rest : Occurs n h nodes (m.after l) k) :
      Occurs n h (m :: nodes) l (extentOf [m] + k)
  | ifTrue {body nodes : List Node} {label l k : Nat} {place : Place}
      (inner : Occurs n h body (l - 1) k) :
      Occurs n h (.ifTrue body label place :: nodes) l (3 + k)
  | ifFalse {body nodes : List Node} {label l k : Nat} {place : Place}
      (inner : Occurs n h body (l - 1) k) :
      Occurs n h (.ifFalse body label place :: nodes) l (3 + k)
  | yes {yes no nodes : List Node} {label l k : Nat} {place : Place}
      (inner : Occurs n h yes (l - 1) k) :
      Occurs n h (.ifElse yes no label place :: nodes) l (3 + k)
  | no {yes no nodes : List Node} {label l k : Nat} {place : Place}
      (inner : Occurs n h no (l - 1) k) :
      Occurs n h (.ifElse yes no label place :: nodes) l (3 + extentOf yes + 1 + k)
  | condition {p : Pin} {condition body nodes : List Node} {label l k : Nat} {place : Place}
      (inner : Occurs n h condition (l - p.ty.width + p.ty.width) k) :
      Occurs n h (.loop p condition body label place :: nodes) l (2 * p.ty.width + k)
  | body {p : Pin} {condition body nodes : List Node} {label l k : Nat} {place : Place}
      (inner : Occurs n h body (l - p.ty.width) k) :
      Occurs n h (.loop p condition body label place :: nodes) l
        (2 * p.ty.width + extentOf condition + 3 + k)

@[simp] theorem length_itemsOf_markCode (f : Func) (is : List Instr) (h : Nat) :
    (itemsOf (markCode f is h)).length = is.length := by
  have lines := congrArg instrsOf (markCode_lines f is h)
  rw [instrsOf_map_fst, instrsOf_instrs] at lines
  simpa using congrArg List.length lines

theorem length_itemsOf_marked (f : Func) (n : Node) (h : Nat) :
    (itemsOf (n.marked f h)).length = extentOf [n] := by
  have lines := congrArg instrsOf (Node.marked_lines f h n)
  rw [instrsOf_map_fst] at lines
  simpa [extentOf, linesOf] using congrArg List.length lines

@[simp] theorem length_itemsOf_markedOf (f : Func) (nodes : List Node) (h : Nat) :
    (itemsOf (markedOf f nodes h)).length = extentOf nodes := by
  have lines := congrArg instrsOf (markedOf_lines f nodes h)
  rw [instrsOf_map_fst] at lines
  simpa [extentOf] using congrArg List.length lines

theorem length_testTop : testTop.length = 2 := rfl

@[simp] theorem Pin.length_storeCode (p : Pin) : p.storeCode.length = p.ty.width := by
  simp [Pin.storeCode]

@[simp] theorem Pin.length_pushCode (p : Pin) : p.pushCode.length = p.ty.width := by
  simp [Pin.pushCode]

end PinnedStack
