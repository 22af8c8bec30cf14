import PinnedStack.Proofs.Tree.Agreement

/-!
# Branches and loops have numbers of their own

* `Node.jumps`, `jumpsOf` — the numbers that the branches and loops of nodes use for their labels.
* `Reader.Numbered` — the invariant of the second reading: the numbers in use are below the next one
  and none is used twice.
* `Program.nodup_jumps` — in a program that a text spells no two branches or loops share a number.
-/

namespace PinnedStack

mutual

/-- The numbers that a node uses for its jump labels. -/
def Node.jumps : Node → List Nat
  | .op _ _ => []
  | .call _ _ => []
  | .ifTrue body n _ => n :: jumpsOf body
  | .ifFalse body n _ => n :: jumpsOf body
  | .ifElse yes no n _ => n :: (jumpsOf yes ++ jumpsOf no)
  | .loop _ condition body n _ => n :: (jumpsOf condition ++ jumpsOf body)

/-- The numbers that nodes use for their jump labels. -/
def jumpsOf : List Node → List Nat
  | [] => []
  | n :: ns => n.jumps ++ jumpsOf ns

end

@[simp] theorem jumpsOf_nil : jumpsOf [] = [] := rfl

@[simp] theorem jumpsOf_append (xs ys : List Node) : jumpsOf (xs ++ ys) = jumpsOf xs ++ jumpsOf ys := by
  induction xs with
  | nil => rfl
  | cons n xs ih => simp [jumpsOf, ih]

theorem jumpsOf_singleton (n : Node) : jumpsOf [n] = n.jumps := by simp [jumpsOf]

@[simp] theorem jumpsOf_ops (ops : List Op) (place : Place) :
    jumpsOf (ops.map (.op · place)) = [] := by
  induction ops with
  | nil => rfl
  | cons op ops ih => simp [jumpsOf, Node.jumps, ih]

@[simp] theorem jumpsOf_pinNodes (pins : List Pin) (place : Place) :
    jumpsOf (Reader.pinNodes pins place) = [] := by
  have ops : Reader.pinNodes pins place = (pins.reverse.map Op.pin).map (.op · place) := by
    simp [Reader.pinNodes]
  rw [ops, jumpsOf_ops]

@[simp] theorem jumpsOf_unpinNodes (pins : List Pin) (place : Place) :
    jumpsOf (Reader.unpinNodes pins place) = [] := by
  have ops : Reader.unpinNodes pins place = (pins.map Op.unpin).map (.op · place) := by
    simp [Reader.unpinNodes]
  rw [ops, jumpsOf_ops]

theorem Node.Fits.jumps_eq_nil {callees : List Call} {scope : List Pin} {node : Node}
    (fits : node.Fits callees scope) : node.jumps = [] := by
  match node, fits with
  | .op _ _, _ => rfl
  | .call _ _, _ => rfl

/-- The numbers of an open block that are not those of the nodes it has collected last. -/
def Frame.jumps : Frame → List Nat
  | .function .. => []
  | .whenTrue n _ => [n]
  | .whenFalse yes n _ => n :: jumpsOf yes
  | .loopCondition _ n _ => [n]
  | .loopBody _ condition n _ => n :: jumpsOf condition
  | .bindBody .. => []

def jumpsOfBlocks (blocks : List OpenBlock) : List Nat :=
  blocks.flatMap fun b => b.frame.jumps ++ jumpsOf b.nodes

namespace Reader

/-- The numbers in use at a point of the second reading. -/
def jumps (r : Reader) : List Nat :=
  jumpsOf r.main ++ jumpsOfBlocks r.blocks ++ r.functions.flatMap fun f => jumpsOf f.body

/-- The numbers in use are below the next one and differ. -/
def Numbered (r : Reader) : Prop :=
  ∀ n, r.jumps.count n ≤ if n < r.supply.nextLabel then 1 else 0

variable {r next : Reader}

theorem count_jumps_add (r : Reader) (nodes : List Node) (n : Nat) :
    (r.add nodes).jumps.count n = r.jumps.count n + (jumpsOf nodes).count n := by
  unfold add jumps
  split
  · rename_i blocks
    simp only [blocks, jumpsOf_append, List.count_append]
    omega
  · rename_i b outer blocks
    simp only [blocks, jumpsOfBlocks, List.flatMap_cons, jumpsOf_append, List.count_append]
    omega

theorem count_jumps_push (r : Reader) (frame : Frame) (n : Nat) :
    (r.push frame).jumps.count n = r.jumps.count n + frame.jumps.count n := by
  simp only [push, jumps, jumpsOfBlocks, List.flatMap_cons, jumpsOf_nil, List.append_nil,
    List.count_append]
  omega

theorem Numbered.of_count (h : r.Numbered) (label : next.supply.nextLabel = r.supply.nextLabel)
    (count : ∀ n, next.jumps.count n = r.jumps.count n) : next.Numbered := by
  intro n
  rw [count, label]
  exact h n

/-- The next number comes into use. -/
theorem Numbered.of_count_succ (h : r.Numbered)
    (label : next.supply.nextLabel = r.supply.nextLabel + 1)
    (count : ∀ n, next.jumps.count n = r.jumps.count n + [r.supply.nextLabel].count n) :
    next.Numbered := by
  intro n
  have here := h n
  rw [count, label]
  by_cases same : n = r.supply.nextLabel
  · subst same
    simp at here ⊢
    omega
  · have other : [r.supply.nextLabel].count n = 0 :=
        List.count_eq_zero.2 fun mem => same (List.mem_singleton.1 mem)
    rw [other]
    split at here <;> split <;> omega

@[simp] theorem unpinAll_nextLabel (s : Supply) (pins : List Pin) :
    (unpinAll s pins).nextLabel = s.nextLabel := by
  unfold unpinAll
  generalize pins.reverse = ps
  induction ps generalizing s with
  | nil => rfl
  | cons p ps ih => simpa [Supply.unpin] using ih (s.unpin p.name).2

theorem numbered_close (h : r.Numbered) {b : OpenBlock} {outer : List OpenBlock}
    (blocks : r.blocks = b :: outer) (closed : r.close b outer = some next) : next.Numbered := by
  have before : ∀ n, r.jumps.count n = (jumpsOf r.main ++ jumpsOfBlocks outer
      ++ r.functions.flatMap fun f => jumpsOf f.body).count n
        + (b.frame.jumps ++ jumpsOf b.nodes).count n := by
    intro n
    simp only [jumps, blocks, jumpsOfBlocks, List.flatMap_cons, List.count_append]
    omega
  obtain ⟨frame, nodes⟩ := b
  have done : ∀ {supply : Supply} {made : List Node}, supply.nextLabel = r.supply.nextLabel →
      (∀ n, (jumpsOf made).count n = (frame.jumps ++ jumpsOf nodes).count n) →
      (({ r with supply := supply, blocks := outer } : Reader).add made).Numbered := by
    intro supply made label same
    refine h.of_count (by simpa using label) fun n => ?_
    rw [count_jumps_add, before, same n]
    rfl
  cases frame with
  | function head opener firstSlot pins =>
    cases closed
    refine h.of_count (by simp) fun n => ?_
    rw [before]
    simp only [jumps, jumpsOfBlocks, Frame.jumps, List.flatMap_append, List.flatMap_cons,
      List.flatMap_nil, List.count_append, jumpsOf_append, jumpsOf_unpinNodes, List.append_nil,
      List.nil_append]
    omega
  | whenTrue label place =>
    cases closed
    exact done rfl fun n => by simp [jumpsOf_singleton, Node.jumps, Frame.jumps]
  | whenFalse yes label place =>
    cases closed
    refine done rfl fun n => ?_
    unfold branchNode
    split
    · rename_i empty
      simp [List.isEmpty_iff.1 empty, jumpsOf_singleton, Node.jumps, Frame.jumps]
    · simp [jumpsOf_singleton, Node.jumps, Frame.jumps]
  | loopCondition p label place => cases closed
  | loopBody p condition label place =>
    cases closed
    exact done rfl fun n => by simp [jumpsOf_singleton, Node.jumps, Frame.jumps]
  | bindBody pins place =>
    cases closed
    exact done (by simp) fun n => by simp [Frame.jumps]

theorem bindParams_nextLabel {s supply : Supply} {place : Place} {params : List (String × Ty)}
    {pins : List Pin} (ok : bindParams s place params = .ok (pins, supply)) :
    supply.nextLabel = s.nextLabel := by
  induction params generalizing s pins with
  | nil =>
    cases ok
    rfl
  | cons param params ih =>
    obtain ⟨name, ty⟩ := param
    unfold bindParams at ok
    split at ok
    · cases ok
    · rename_i p middle here
      split at ok
      · rename_i rest
        cases ok
        exact (ih rest).trans (pin_brings here).2.nextLabel
      · cases ok

theorem numbered_moves {g : Globals} {callees : List Call} {t : Token} (hg : g.Sound callees)
    (h : r.Numbered) (moves : Moves g r t next) : next.Numbered := by
  cases moves with
  | leaf phase plain book nextLabel fits =>
    refine h.of_count (by simpa using nextLabel) fun n => ?_
    rw [count_jumps_add, jumpsOf_singleton, (fits callees hg).jumps_eq_nil]
    rfl
  | branch phase kind =>
    refine h.of_count_succ rfl fun n => ?_
    exact count_jumps_push _ _ n
  | loop phase kind => exact h
  | bind phase kind => exact h
  | stray phase kind blocks => exact h
  | close phase kind blocks closed => exact numbered_close h blocks closed
  | otherwise phase kind blocks =>
    refine h.of_count rfl fun n => ?_
    simp [jumps, blocks, jumpsOfBlocks, Frame.jumps]
  | body phase kind blocks =>
    refine h.of_count rfl fun n => ?_
    simp [jumps, blocks, jumpsOfBlocks, Frame.jumps]
  | function phase kind blocks heads => exact h
  | definition phase kind form blocks => exact h
  | inHead phase kind => exact h
  | headDone phase kind opened =>
    obtain ⟨pins, supply, bound, rfl⟩ := openFunction_eq_ok.1 opened
    refine h.of_count ?_ fun n => ?_
    · exact bindParams_nextLabel bound
    · simp [jumps, jumpsOfBlocks, Frame.jumps]
  | inPlain phase kind => exact h
  | plainDone phase kind => exact h
  | iterator phase kind bound =>
    have label := (bindName_brings hg bound).2.nextLabel
    refine h.of_count_succ (by simp [Supply.label, push, label]) fun n => ?_
    rw [← label]
    exact count_jumps_push { r with supply := _ } _ n
  | name phase kind bound =>
    exact h.of_count (bindName_brings hg bound).2.nextLabel fun _ => rfl
  | within phase kind =>
    refine h.of_count (by simp [push]) fun n => ?_
    refine (count_jumps_push (r.add _) _ n).trans ?_
    rw [count_jumps_add]
    simp [Frame.jumps]

end Reader

/-- **No two branches or loops of a program share a number.** -/
theorem Program.nodup_jumps {limits : Limits} {text : Scanned} {p : Program} {tables : Tables}
    (ok : Program.ofTokens limits text = .ok (p, tables)) :
    (jumpsOf p.main.body ++ p.functions.flatMap fun f => jumpsOf f.body).Nodup := by
  obtain ⟨survey, r, first, second, finished, rfl, -⟩ := ofTokens_eq_ok ok
  have sound := Survey.ofTokens_sound first
  have start : (Reader.start survey).Numbered := by
    intro n
    simp [Reader.jumps, jumpsOfBlocks, Reader.start]
  have numbered : r.Numbered :=
    Reader.run_induct (fun h moves => Reader.numbered_moves sound.globals h moves) start second
  rw [List.nodup_iff_count]
  intro n
  have here := numbered n
  simp only [Reader.jumps, List.count_append] at here
  simp only [Func.entry, List.count_append]
  split at here <;> omega

end PinnedStack
