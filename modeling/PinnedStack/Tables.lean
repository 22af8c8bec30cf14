/-!
# Data tables

* `Tables` — the literals of a program and its named memories. Both are only ever added to, so a
  label, once given, keeps its entry.
* `Tables.addLiteral` — equal bytes share one entry.
-/

namespace PinnedStack

structure Region where
  name : String
  size : Nat
deriving DecidableEq

/-- What a program stores outside its code: the bytes of each literal, and its regions. -/
structure Tables where
  literals : List (List UInt8)
  regions : List Region
deriving DecidableEq

namespace Tables

def empty : Tables := ⟨[], []⟩

/-- The label of the literal at an index. -/
def literalLabel (i : Nat) : String := s!"str_{i}"

/-- The label of the region at an index. -/
def regionLabel (i : Nat) : String := s!"mem_{i}"

/-- Every literal with its label. -/
def labelledLiterals (t : Tables) : List (String × List UInt8) :=
  t.literals.zipIdx.map fun (bytes, i) => (literalLabel i, bytes)

/-- Every region with its label. -/
def labelledRegions (t : Tables) : List (String × Region) :=
  t.regions.zipIdx.map fun (region, i) => (regionLabel i, region)

/-- The label of the given bytes, which are added unless they are there. -/
def addLiteral (t : Tables) (bytes : List UInt8) : String × Tables :=
  match t.literals.idxOf? bytes with
  | some i => (literalLabel i, t)
  | none => (literalLabel t.literals.length, { t with literals := t.literals ++ [bytes] })

/-- Adds a region, even one of a name that is there already. -/
def addRegion (t : Tables) (name : String) (size : Nat) : String × Tables :=
  (regionLabel t.regions.length, { t with regions := t.regions ++ [⟨name, size⟩] })

/-- Only bytes that are new take an entry. -/
theorem literals_addLiteral (t : Tables) (bytes : List UInt8) :
    (t.addLiteral bytes).2.literals =
      if bytes ∈ t.literals then t.literals else t.literals ++ [bytes] := by
  unfold addLiteral
  split
  · rename_i i found
    have held : bytes ∈ t.literals := by
      obtain ⟨bound, eq, _⟩ := List.idxOf?_eq_some_iff.1 found
      exact eq ▸ List.getElem_mem bound
    simp [held]
  · rename_i absent
    simp [List.idxOf?_eq_none_iff.1 absent]

/-- Entries that are added behind others leave the labels of those alone. -/
theorem labelled_mono {α : Type} {label : Nat → String} {as more : List α} (h : as <+: more) :
    (as.zipIdx.map fun (a, i) => (label i, a)) <+: more.zipIdx.map fun (a, i) => (label i, a) := by
  obtain ⟨rest, rfl⟩ := h
  rw [List.zipIdx_append, List.map_append]
  exact List.prefix_append _ _

end Tables

end PinnedStack
