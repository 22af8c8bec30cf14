import PinnedStack.Host.Disk
import PinnedStack.Proofs.Command.Paths

/-!
# Where paths lead

* `Disk.Way` — the ways that the pieces of a path lead. `Disk.walk_eq_ok` — they are the walks.
* `Disk.Roads` — disks with the same directories and symbolic links. `Disk.Roads.locate` — paths
  lead to the same places there.
* `Disk.Sound` — what holds of the files and directories of every disk.
* `Disk.locate_dots`, `Disk.locate_name` — what a path leads to that ends in dots, and in a name.
-/

namespace PinnedStack

/-- Do ways go on from here? -/
def Entry.isRoad : Entry → Bool
  | directory _ => true
  | link _ => true
  | _ => false

namespace Disk

/-! ## Ways -/

/-- A piece of a path that names something in a directory. -/
structure IsName (piece : String) : Prop where
  dot : ¬(piece = "" ∨ piece = ".")
  up : piece ≠ ".."
  size : ¬piece.utf8ByteSize > maxName

/-- The ways that pieces of a path lead from a place to another, with so many links to spare. -/
inductive Way (d : Disk) (final : Bool) : Nat → List String → List String → List String → Prop where
  | done {links names} : Way d final links names [] names
  | stay {links names refusal piece rest p} (here : d.find? names = some (.directory refusal))
      (dot : piece = "" ∨ piece = ".") (later : Way d final links names rest p) :
      Way d final links names (piece :: rest) p
  | up {links names refusal rest p} (here : d.find? names = some (.directory refusal))
      (later : Way d final links names.dropLast rest p) : Way d final links names (".." :: rest) p
  | on {links names refusal piece rest p} (here : d.find? names = some (.directory refusal))
      (name : IsName piece) (plain : ∀ target, d.find? (names ++ [piece]) ≠ some (.link target))
      (later : Way d final links (names ++ [piece]) rest p) :
      Way d final links names (piece :: rest) p
  | stop {links names refusal piece target} (here : d.find? names = some (.directory refusal))
      (name : IsName piece) (link : d.find? (names ++ [piece]) = some (.link target))
      (last : final = false) : Way d final links names [piece] (names ++ [piece])
  | follow {links names refusal piece target rest p}
      (here : d.find? names = some (.directory refusal)) (name : IsName piece)
      (link : d.find? (names ++ [piece]) = some (.link target))
      (more : ¬(rest.isEmpty = true ∧ (!final) = true))
      (later : Way d final links (if target.toList.head? = some '/' then [] else names)
        (target.splitOn "/" ++ rest) p) :
      Way d final (links + 1) names (piece :: rest) p

variable {d d' : Disk} {final : Bool} {links : Nat} {names pieces p : List String}
  {path piece : String}

theorem walk_eq_ok :
    d.walk final links names pieces = .ok p ↔ d.Way final links names pieces p := by
  constructor
  · intro leads
    fun_induction d.walk final links names pieces with
    | case1 =>
      cases leads
      exact .done
    | case3 _ _ _ _ _ here dot ih => exact .stay here dot (ih leads)
    | case4 _ _ _ _ here _ ih => exact .up here (ih leads)
    | case6 _ _ _ rest _ here dot up size _ link last =>
      cases leads
      obtain rfl : rest = [] := List.isEmpty_iff.1 last.1
      exact .stop here ⟨dot, up, size⟩ link (Bool.not_eq_true' _ ▸ last.2)
    | case8 _ _ _ _ here dot up size _ link more _ pieces root ih =>
      refine .follow here ⟨dot, up, size⟩ link more ?_
      rw [if_pos root]
      exact ih leads
    | case9 _ _ _ _ here dot up size _ link more _ pieces root ih =>
      refine .follow here ⟨dot, up, size⟩ link more ?_
      rw [if_neg root]
      exact ih leads
    | case10 _ _ _ _ _ here dot up size plain ih => exact .on here ⟨dot, up, size⟩ plain (ih leads)
    | case2 | case5 | case7 | case11 => cases leads
  · intro way
    induction way with
    | done => rw [walk]
    | stay here dot _ ih =>
      rw [walk, here]
      simp only [if_pos dot, ih]
    | up here _ ih =>
      rw [walk, here]
      simp [ih]
    | on here name plain _ ih =>
      rw [walk, here]
      simp only [if_neg name.dot, if_neg name.up, if_neg name.size]
      exact ih
    | stop here name link last =>
      rw [walk, here]
      simp only [if_neg name.dot, if_neg name.up, if_neg name.size, link, last]
      rfl
    | follow here name link more _ ih =>
      rw [walk, here]
      simp only [if_neg name.dot, if_neg name.up, if_neg name.size, link, if_neg more]
      split at ih
      · rw [if_pos ‹_›, ih]
      · rw [if_neg ‹_›, ih]

theorem start_eq_ok (begins : d.start path = .ok (names, pieces)) : pieces = path.splitOn "/" := by
  unfold start at begins
  split at begins
  · cases begins
  split at begins
  · cases begins
  split at begins
  · cases begins
  split at begins
  all_goals
    cases begins
    rfl

/-- What a path leads to lies at the end of a way. -/
theorem walked_eq_ok (final : Bool) :
    (match d.start path with
      | .error e => .error e
      | .ok (names, pieces) => d.walk final maxLinks names pieces : Except OsError _) = .ok p
    ↔ ∃ names, d.start path = .ok (names, path.splitOn "/")
        ∧ d.Way final maxLinks names (path.splitOn "/") p := by
  cases begins : d.start path with
  | error e => exact ⟨nofun, nofun⟩
  | ok first =>
    obtain ⟨names, pieces⟩ := first
    obtain rfl := start_eq_ok begins
    simp only [walk_eq_ok, Except.ok.injEq, Prod.mk.injEq, and_true, exists_eq_left']

theorem locate_eq_ok : d.locate path = .ok p
    ↔ ∃ names, d.start path = .ok (names, path.splitOn "/")
        ∧ d.Way true maxLinks names (path.splitOn "/") p := walked_eq_ok true

theorem locateLink_eq_ok : d.locateLink path = .ok p
    ↔ ∃ names, d.start path = .ok (names, path.splitOn "/")
        ∧ d.Way false maxLinks names (path.splitOn "/") p := walked_eq_ok false

theorem entry_eq_ok {e : Entry} :
    d.entry path = .ok e ↔ ∃ p, d.locate path = .ok p ∧ d.find? p = some e := by
  unfold entry
  cases located : d.locate path with
  | error cause => simp
  | ok p => cases found : d.find? p <;> simp [found]

theorem entryLink_eq_ok {e : Entry} :
    d.entryLink path = .ok e ↔ ∃ p, d.locateLink path = .ok p ∧ d.find? p = some e := by
  unfold entryLink
  cases located : d.locateLink path with
  | error cause => simp
  | ok p => cases found : d.find? p <;> simp [found]

/-! ## The same roads -/

/-- Two disks have the same directories and symbolic links. -/
structure Roads (d d' : Disk) : Prop where
  here : d'.here = d.here
  kept : ∀ names e, e.isRoad = true → (d'.find? names = some e ↔ d.find? names = some e)

namespace Roads

theorem symm (h : d.Roads d') : d'.Roads d :=
  ⟨h.here.symm, fun names e road => (h.kept names e road).symm⟩

theorem trans {d'' : Disk} (h : d.Roads d') (h' : d'.Roads d'') : d.Roads d'' :=
  ⟨h'.here.trans h.here, fun names e road => (h'.kept names e road).trans (h.kept names e road)⟩

theorem way (h : d.Roads d') (way : d.Way final links names pieces p) :
    d'.Way final links names pieces p := by
  induction way with
  | done => exact .done
  | stay here dot _ ih => exact .stay ((h.kept _ _ rfl).2 here) dot ih
  | up here _ ih => exact .up ((h.kept _ _ rfl).2 here) ih
  | on here name plain _ ih =>
    exact .on ((h.kept _ _ rfl).2 here) name (fun _ link => plain _ ((h.kept _ _ rfl).1 link)) ih
  | stop here name link last =>
    exact .stop ((h.kept _ _ rfl).2 here) name ((h.kept _ _ rfl).2 link) last
  | follow here name link more _ ih =>
    exact .follow ((h.kept _ _ rfl).2 here) name ((h.kept _ _ rfl).2 link) more ih

theorem starts (h : d.Roads d') :
    (∃ names, d'.start path = .ok (names, pieces) ∧ d'.Way final links names pieces p)
    ↔ ∃ names, d.start path = .ok (names, pieces) ∧ d.Way final links names pieces p := by
  unfold start
  rw [h.here]
  exact ⟨fun ⟨names, begins, way⟩ => ⟨names, begins, h.symm.way way⟩,
    fun ⟨names, begins, way⟩ => ⟨names, begins, h.way way⟩⟩

theorem locate (h : d.Roads d') : d'.locate path = .ok p ↔ d.locate path = .ok p :=
  locate_eq_ok.trans (h.starts.trans locate_eq_ok.symm)

theorem locateLink (h : d.Roads d') : d'.locateLink path = .ok p ↔ d.locateLink path = .ok p :=
  locateLink_eq_ok.trans (h.starts.trans locateLink_eq_ok.symm)

theorem entryLink {target : String} (h : d.Roads d') :
    d'.entryLink path = .ok (.link target) ↔ d.entryLink path = .ok (.link target) := by
  rw [entryLink_eq_ok, entryLink_eq_ok]
  exact exists_congr fun p => and_congr h.locateLink (h.kept p _ rfl)

end Roads

/-! ## The last piece -/

/-- A disk on which every file that has a name exists, and directories are in directories. -/
structure Sound (d : Disk) : Prop where
  files : ∀ names id, d.find? names = some (.file id) → id < d.files.size
  above : ∀ names refusal, d.find? names = some (.directory refusal) →
    ∃ refusal', d.find? names.dropLast = some (.directory refusal')

theorem Way.dots {last : String} (sound : d.Sound) (dots : (last = "" ∨ last = ".") ∨ last = "..")
    (way : d.Way true links names (pieces ++ [last]) p) :
    ∃ refusal, d.find? p = some (.directory refusal) := by
  -- Links put more pieces in front of the last one, so the induction is on the way.
  generalize whole : pieces ++ [last] = all at way
  induction way generalizing pieces with
  | done => simp at whole
  | stay here dot later ih =>
    rcases List.append_eq_cons_iff.1 whole with ⟨rfl, single⟩ | ⟨front, rfl, rest⟩
    · cases single
      cases later
      exact ⟨_, here⟩
    · exact ih rest.symm
  | up here later ih =>
    rcases List.append_eq_cons_iff.1 whole with ⟨rfl, single⟩ | ⟨front, rfl, rest⟩
    · cases single
      cases later
      exact sound.above _ _ here
    · exact ih rest.symm
  | on here name plain later ih =>
    rcases List.append_eq_cons_iff.1 whole with ⟨rfl, single⟩ | ⟨front, rfl, rest⟩
    · cases single
      exact absurd dots (not_or.2 ⟨name.dot, name.up⟩)
    · exact ih rest.symm
  | stop here name link last => cases last
  | follow here name link more later ih =>
    rcases List.append_eq_cons_iff.1 whole with ⟨rfl, single⟩ | ⟨front, rfl, rest⟩
    · cases single
      exact absurd dots (not_or.2 ⟨name.dot, name.up⟩)
    · exact ih (by rw [rest, List.append_assoc])

/-- A way that ends in a name leads to that name in a directory, unless a link is there. -/
theorem Way.named {last : String} (dot : ¬(last = "" ∨ last = ".")) (up : last ≠ "..")
    (way : d.Way true links names (pieces ++ [last]) p) :
    ∃ front, d.Way false links names (pieces ++ [last]) (front ++ [last])
      ∧ (p = front ++ [last] ∨ ∃ target, d.find? (front ++ [last]) = some (.link target)) := by
  generalize whole : pieces ++ [last] = all at way ⊢
  induction way generalizing pieces with
  | done => simp at whole
  | stay here dot' later ih =>
    rcases List.append_eq_cons_iff.1 whole with ⟨rfl, single⟩ | ⟨front, rfl, rest⟩
    · cases single
      exact absurd dot' dot
    · obtain ⟨front, way, leads⟩ := ih rest.symm
      exact ⟨front, .stay here dot' way, leads⟩
  | up here later ih =>
    rcases List.append_eq_cons_iff.1 whole with ⟨rfl, single⟩ | ⟨front, rfl, rest⟩
    · cases single
      exact absurd rfl up
    · obtain ⟨front, way, leads⟩ := ih rest.symm
      exact ⟨front, .up here way, leads⟩
  | on here name plain later ih =>
    rcases List.append_eq_cons_iff.1 whole with ⟨rfl, single⟩ | ⟨front, rfl, rest⟩
    · cases single
      cases later
      exact ⟨_, .on here name plain .done, .inl rfl⟩
    · obtain ⟨front, way, leads⟩ := ih rest.symm
      exact ⟨front, .on here name plain way, leads⟩
  | stop here name link last => cases last
  | follow here name link more later ih =>
    rcases List.append_eq_cons_iff.1 whole with ⟨rfl, single⟩ | ⟨front, rfl, rest⟩
    · cases single
      exact ⟨_, .stop here name link rfl, .inr ⟨_, link⟩⟩
    · obtain ⟨front', way, leads⟩ := ih (by rw [rest, List.append_assoc])
      refine ⟨front', .follow here name link ?_ way, leads⟩
      rw [rest]
      simp

open PinnedStack.Path

theorem locate_dots (sound : d.Sound) (dots : IsDots (lastPiece path))
    (located : d.locate path = .ok p) : ∃ refusal, d.find? p = some (.directory refusal) := by
  obtain ⟨names, -, way⟩ := locate_eq_ok.1 located
  obtain ⟨front, split⟩ := splitOn_slash path
  rw [split] at way
  exact way.dots sound (ofList_dots.2 dots)

/-- A path that ends in a name leads to a place of that name, unless a link is there. -/
theorem locate_name (proper : ¬IsDots (lastPiece path))
    (unlinked : ∀ target, d.entryLink path ≠ .ok (.link target))
    (located : d.locate path = .ok p) : p.getLast? = some (String.ofList (lastPiece path)) := by
  obtain ⟨names, begins, way⟩ := locate_eq_ok.1 located
  obtain ⟨front, split⟩ := splitOn_slash path
  obtain ⟨dot, up⟩ := not_or.1 (mt ofList_dots.1 proper)
  rw [split] at way
  obtain ⟨above, direct, rfl | ⟨target, link⟩⟩ := way.named dot up
  · exact List.getLast?_concat
  · rw [← split] at direct
    have there := locateLink_eq_ok.2 ⟨names, begins, direct⟩
    exact absurd (entryLink_eq_ok.2 ⟨_, there, link⟩) (unlinked target)

end Disk

end PinnedStack
