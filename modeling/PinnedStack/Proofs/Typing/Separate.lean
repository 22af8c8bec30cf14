import PinnedStack.Proofs.Tree.Agreement
import PinnedStack.Proofs.Typing.Sightings

/-!
# Definitions are judged one by one

The types that runtime pins hold are kept in one table for the whole program, but no block leaves a
trace in it.

* `Node.blocks`, `blocksOf`, `Func.blocks` — the arms, loop conditions and loop bodies of a body, at
  any depth.
* `Scoped.of_mem_blocksOf` — in a well-scoped body each of them is well-scoped.
* `verifyFuncs_eq_ok` — functions are accepted in order just if each is accepted on its own.
* `Program.verify_separately` — so a program is accepted just if its functions and the code outside
  them are, each with nothing in the table, and in whatever order the functions are listed.
-/

namespace PinnedStack

/-! ## Blocks -/

mutual

/-- The blocks of a node, at any depth: arms, loop conditions and loop bodies. -/
def Node.blocks : Node → List (List Node)
  | .op _ _ => []
  | .call _ _ => []
  | .ifTrue body _ _ => body :: blocksOf body
  | .ifFalse body _ _ => body :: blocksOf body
  | .ifElse yes no _ _ => yes :: no :: (blocksOf yes ++ blocksOf no)
  | .loop _ condition body _ _ => condition :: body :: (blocksOf condition ++ blocksOf body)

def blocksOf : List Node → List (List Node)
  | [] => []
  | n :: ns => n.blocks ++ blocksOf ns

end

/-- The body of a function and all blocks in it. -/
def Func.blocks (f : Func) : List (List Node) := f.body :: blocksOf f.body

theorem blocksOf_append (xs ys : List Node) : blocksOf (xs ++ ys) = blocksOf xs ++ blocksOf ys := by
  induction xs with
  | nil => rfl
  | cons n xs ih => simp [blocksOf, ih]

theorem blocksOf_singleton (n : Node) : blocksOf [n] = n.blocks := by simp [blocksOf]

theorem blocksOf_ops (ops : List Op) (place : Place) : blocksOf (ops.map (.op · place)) = [] := by
  induction ops with
  | nil => rfl
  | cons op ops ih => simpa [blocksOf, Node.blocks] using ih

theorem blocksOf_bind (pins : List Pin) (body : List Node) (place : Place) :
    blocksOf (Reader.pinNodes pins place ++ body ++ Reader.unpinNodes pins place)
      = blocksOf body := by
  have bound : blocksOf (Reader.pinNodes pins place) = [] := by
    simpa [Reader.pinNodes, Function.comp_def] using blocksOf_ops (pins.reverse.map .pin) place
  have released : blocksOf (Reader.unpinNodes pins place) = [] := by
    simpa [Reader.unpinNodes, Function.comp_def] using blocksOf_ops (pins.map .unpin) place
  simp [blocksOf_append, bound, released]

section Scoped

variable {callees : List Call} {scope : List Pin} {first stop : Nat} {nodes : List Node}

/-- The blocks of a well-scoped body are well-scoped, where more pins may be live. -/
theorem Scoped.of_mem_blocksOf (h : Scoped callees scope first stop nodes) :
    ∀ block ∈ blocksOf nodes, ∃ scope first stop, Scoped callees scope first stop block := by
  induction h with
  | nil => simp [blocksOf]
  | append _ _ left right =>
    rw [blocksOf_append]
    exact fun block mem => (List.mem_append.1 mem).elim (left block) (right block)
  | op => simp [blocksOf, Node.blocks]
  | call => simp [blocksOf, Node.blocks]
  | ifTrue body inner =>
    rw [blocksOf_singleton, Node.blocks]
    exact List.forall_mem_cons.2 ⟨⟨_, _, _, body⟩, inner⟩
  | ifFalse body inner =>
    rw [blocksOf_singleton, Node.blocks]
    exact List.forall_mem_cons.2 ⟨⟨_, _, _, body⟩, inner⟩
  | ifElse yes no left right =>
    rw [blocksOf_singleton, Node.blocks]
    refine List.forall_mem_cons.2 ⟨⟨_, _, _, yes⟩, List.forall_mem_cons.2 ⟨⟨_, _, _, no⟩, ?_⟩⟩
    exact fun block mem => (List.mem_append.1 mem).elim (left block) (right block)
  | loop _ condition body left right =>
    rw [blocksOf_singleton, Node.blocks]
    refine List.forall_mem_cons.2
      ⟨⟨_, _, _, condition⟩, List.forall_mem_cons.2 ⟨⟨_, _, _, body⟩, ?_⟩⟩
    exact fun block mem => (List.mem_append.1 mem).elim (left block) (right block)
  | bind _ _ _ inner =>
    rw [blocksOf_bind]
    exact inner

end Scoped

/-! ## Functions -/

/-- Is the body of a function well-scoped, with no pin live at its start? -/
def Func.WellScoped (f : Func) : Prop :=
  ∃ callees first stop, Scoped callees [] first stop f.body

/-- Each block of a well-scoped function leaves the types of runtime pins as it finds them. -/
theorem Func.WellScoped.sightings_eq {f : Func} (h : f.WellScoped) {block : List Node}
    (mem : block ∈ f.blocks) {k after : Knowledge} (ok : verifyAll block k = .ok after) :
    after.sightings = k.sightings := by
  obtain ⟨callees, first, stop, body⟩ := h
  rcases List.mem_cons.1 mem with rfl | mem
  · exact body.sightings_eq ok
  · obtain ⟨_, _, _, inner⟩ := body.of_mem_blocksOf block mem
    exact inner.sightings_eq ok

/-- **Functions are accepted in order just if each is accepted on its own.** -/
theorem verifyFuncs_eq_ok {fs : List Func} (formed : ∀ f ∈ fs, f.WellScoped)
    {sightings last : Sightings} : verifyFuncs fs sightings = .ok last ↔
      last = sightings ∧ ∀ f ∈ fs, ∃ after, f.verify sightings = .ok after := by
  induction fs with
  | nil => simp [verifyFuncs, eq_comm]
  | cons f fs ih =>
    obtain ⟨here, rest⟩ := List.forall_mem_cons.1 formed
    obtain ⟨callees, first, stop, body⟩ := here
    simp only [verifyFuncs, Except.bind_eq_ok, List.forall_mem_cons]
    constructor
    · rintro ⟨next, one, more⟩
      obtain rfl := Func.sightings_eq body one
      obtain ⟨same, all⟩ := (ih rest).1 more
      exact ⟨same, ⟨next, one⟩, all⟩
    · rintro ⟨same, ⟨next, one⟩, all⟩
      obtain rfl := Func.sightings_eq body one
      exact ⟨next, one, (ih rest).2 ⟨same, all⟩⟩

/-! ## Programs -/

namespace Program

variable {p : Program}

theorem Formed.wellScoped {capacity : Nat} (h : p.Formed capacity) :
    ∀ f ∈ p.functions ++ [p.main], f.WellScoped :=
  fun f mem => ⟨_, h.scoped f mem⟩

/-- A well-formed program is accepted just if each of its bodies is, with nothing known of pins. -/
theorem verify_eq_ok (formed : ∀ f ∈ p.functions ++ [p.main], f.WellScoped) :
    p.verify = .ok ()
      ↔ ∀ f ∈ p.functions ++ [p.main], ∃ after, f.verify .empty = .ok after := by
  have functions : ∀ f ∈ p.functions, f.WellScoped :=
    fun f mem => formed f (List.mem_append_left _ mem)
  simp only [verify, Except.bind_eq_ok, verifyFuncs_eq_ok functions, List.forall_mem_append,
    List.forall_mem_singleton]
  constructor
  · rintro ⟨_, ⟨rfl, all⟩, after, main, -⟩
    exact ⟨all, after, main⟩
  · rintro ⟨all, after, main⟩
    exact ⟨_, ⟨rfl, all⟩, after, main, rfl⟩

/-- **Verification goes definition by definition.** In a program that a text spells, each block
that verifies, from whatever was known, leaves the types of runtime pins as it found them. So the
program is accepted just if each function and the code outside them are accepted on their own, and
the order of its functions does not matter. -/
theorem verify_separately {limits : Limits} {text file : String} {tables : Tables}
    (ok : Program.ofText limits text file = .ok (p, tables)) :
    (∀ f ∈ p.functions ++ [p.main], ∀ block ∈ f.blocks, ∀ k after,
        verifyAll block k = .ok after → after.sightings = k.sightings)
      ∧ (p.verify = .ok ()
        ↔ ∀ f ∈ p.functions ++ [p.main], ∃ after, f.verify .empty = .ok after)
      ∧ ∀ functions, functions.Perm p.functions →
        (({ p with functions } : Program).verify = .ok () ↔ p.verify = .ok ()) := by
  obtain ⟨scanned, -, spelled⟩ := Program.ofText_eq_ok ok
  have formed := (Program.formed_of_ofTokens spelled).wellScoped
  refine ⟨fun f mem block inside k after => (formed f mem).sightings_eq inside,
    verify_eq_ok formed, fun functions perm => ?_⟩
  -- The same bodies, each judged on its own.
  have same : ∀ f, f ∈ functions ++ [p.main] ↔ f ∈ p.functions ++ [p.main] := fun f => by
    simp [perm.mem_iff]
  rw [verify_eq_ok formed, verify_eq_ok fun f mem => formed f ((same f).1 mem)]
  exact forall_congr' fun f => by rw [same]

end Program

/-- Two functions with pins, one of them with arms and a loop, and code that calls both. -/
def twiceAndPick : String :=
  ": twice ( Number -- Number ) bind x in x x + ; ; "
    ++ ": pick ( a:Number b:Number -- Number ) a if a loop i do i 1 - ; drop else ; b ; "
    ++ "3 twice 4 pick print"

/-- Both functions and the code outside them are accepted, in either order. -/
theorem verify_separately_twiceAndPick :
    ∃ p tables, Program.ofText {} twiceAndPick "t" = .ok (p, tables)
      ∧ p.functions.map (·.blocks.length) = [1, 5]
      ∧ ({ p with functions := p.functions.reverse } : Program).verify = .ok ()
      ∧ ∀ f ∈ p.functions ++ [p.main], (∃ after, f.verify .empty = .ok after)
        ∧ ∀ block ∈ f.blocks, ∀ k after,
          verifyAll block k = .ok after → after.sightings = k.sightings := by
  obtain ⟨p, tables, spelled, holds⟩ := Except.exists_eq_ok (x := Program.ofText {} twiceAndPick "t")
    (q := fun r => r.1.functions.map (·.blocks.length) == [1, 5] && r.1.verify.toOption.isSome)
    (by decide +kernel)
  obtain ⟨count, accepted⟩ := Bool.and_eq_true_iff.1 holds
  have accepted := Except.eq_ok_get accepted
  obtain ⟨blocks, alone, order⟩ := Program.verify_separately spelled
  exact ⟨p, tables, spelled, beq_iff_eq.1 count, (order _ (List.reverse_perm _)).2 accepted,
    fun f mem => ⟨alone.1 accepted f mem, blocks f mem⟩⟩

end PinnedStack
