import PinnedStack.Proofs.Emission.Origins

/-!
# Nodes that were read stay

* `Reader.nodes` — all nodes that were read up to some token, at any depth.
* `Reader.nodes_moves`, `Reader.nodes_run` — no token takes one of them away.
* `Reader.exists_body_of_mem_nodes` — so, once no block is open, every node that was read is in the
  body of a function or in the main code.
-/

namespace PinnedStack

/-- The nodes of an open block that stand before those it has collected last. -/
def Frame.nodes : Frame → List Node
  | .whenFalse yes _ _ => yes
  | .loopBody _ condition _ _ => condition
  | .function .. | .whenTrue .. | .loopCondition .. | .bindBody .. => []

/-- The nodes of open blocks, at any depth. -/
def nodesOfBlocks (blocks : List OpenBlock) : List Node :=
  blocks.flatMap fun b => nodesIn b.frame.nodes ++ nodesIn b.nodes

namespace Reader

/-- The nodes that were read so far, at any depth. -/
def nodes (r : Reader) : List Node :=
  nodesIn r.main ++ nodesOfBlocks r.blocks ++ r.functions.flatMap fun f => nodesIn f.body

variable {r next : Reader} {g : Globals} {t : Token} {n : Node}

theorem mem_nodes_add {made : List Node} :
    n ∈ (r.add made).nodes ↔ n ∈ r.nodes ∨ n ∈ nodesIn made := by
  unfold add
  split
  · rename_i none
    simp only [nodes, none, nodesIn_append, List.mem_append]
    grind
  · rename_i b outer blocks
    simp only [nodes, blocks, nodesOfBlocks, List.flatMap_cons, nodesIn_append, List.mem_append]
    grind

theorem nodes_subset_push (r : Reader) (frame : Frame) : r.nodes ⊆ (r.push frame).nodes := by
  intro n mem
  simp only [push, nodes, nodesOfBlocks, List.flatMap_cons, List.mem_append] at mem ⊢
  grind

theorem nodes_close {b : OpenBlock} {outer : List OpenBlock} (blocks : r.blocks = b :: outer)
    (closed : r.close b outer = some next) : r.nodes ⊆ next.nodes := by
  obtain ⟨frame, held⟩ := b
  have done : ∀ {supply : Supply} {made : List Node},
      nodesIn frame.nodes ++ nodesIn held ⊆ nodesIn made →
      r.nodes ⊆ (({ r with supply := supply, blocks := outer } : Reader).add made).nodes := by
    intro supply made within n mem
    rw [mem_nodes_add]
    simp only [nodes, blocks, nodesOfBlocks, List.flatMap_cons, List.mem_append] at mem
    have made : n ∈ nodesIn frame.nodes ∨ n ∈ nodesIn held → n ∈ nodesIn made :=
      fun here => within (List.mem_append.2 here)
    simp only [nodes, nodesOfBlocks, List.mem_append]
    grind
  cases frame with
  | function head opener firstSlot pins =>
    cases closed
    intro n mem
    simp only [nodes, blocks, nodesOfBlocks, Frame.nodes, List.flatMap_cons, List.flatMap_append,
      List.flatMap_nil, nodesIn, nodesIn_append, List.mem_append] at mem ⊢
    grind
  | whenTrue label place =>
    cases closed
    refine done ?_
    simp [Frame.nodes, nodesIn, Node.within]
  | whenFalse yes label place =>
    cases closed
    refine done ?_
    unfold branchNode
    split
    · rename_i empty
      simp [Frame.nodes, nodesIn, Node.within, List.isEmpty_iff.1 empty]
    · simp [Frame.nodes, nodesIn, Node.within]
  | loopCondition p label place => cases closed
  | loopBody p condition label place =>
    cases closed
    refine done ?_
    simp [Frame.nodes, nodesIn, Node.within]
  | bindBody pins place =>
    cases closed
    refine done ?_
    simp [Frame.nodes, nodesIn]

/-- **No token takes a node away that was read.** -/
theorem nodes_moves (moves : Moves g r t next) : r.nodes ⊆ next.nodes := by
  cases moves with
  | leaf phase => exact fun n mem => mem_nodes_add.2 (.inl mem)
  | branch phase kind => exact nodes_subset_push _ _
  | loop | bind | stray | function | definition | inHead | inPlain | plainDone | name =>
    exact List.Subset.refl _
  | close phase kind blocks closed => exact nodes_close blocks closed
  | otherwise phase kind blocks | body phase kind blocks =>
    intro n mem
    simp only [nodes, blocks, nodesOfBlocks, Frame.nodes, List.flatMap_cons, nodesIn,
      List.mem_append, List.append_nil, List.nil_append] at mem ⊢
    exact mem
  | headDone phase kind opened =>
    obtain ⟨-, -, -, rfl⟩ := openFunction_eq_ok.1 opened
    intro n mem
    simp only [nodes, nodesOfBlocks, List.flatMap_cons, List.mem_append] at mem ⊢
    grind
  | iterator phase kind bound => exact nodes_subset_push { r with supply := _ } _
  | within phase kind =>
    intro n mem
    exact nodes_subset_push _ _ (mem_nodes_add.2 (.inl mem))

/-- **What a reading has read, it keeps.** -/
theorem nodes_run {ts : List Token} (ok : run g r ts = .ok next) : r.nodes ⊆ next.nodes :=
  run_induct (P := fun s => r.nodes ⊆ s.nodes)
    (fun kept moves _ mem => nodes_moves moves (kept mem)) (List.Subset.refl _) ok

/-- Outside all blocks, what was read is in the functions and in the main code. -/
theorem exists_body_of_mem_nodes {text : Scanned} (outside : r.blocks = []) (mem : n ∈ r.nodes) :
    ∃ f ∈ (⟨r.functions, .entry r.main text.start⟩ : Program).bodies, n ∈ nodesIn f.body := by
  simp only [nodes, outside, nodesOfBlocks, List.flatMap_nil, List.append_nil, List.mem_append,
    List.mem_flatMap] at mem
  rcases mem with main | ⟨f, known, inside⟩
  · exact ⟨_, List.mem_append_right _ (List.mem_singleton_self _), main⟩
  · exact ⟨f, List.mem_append_left _ known, inside⟩

end Reader

end PinnedStack
