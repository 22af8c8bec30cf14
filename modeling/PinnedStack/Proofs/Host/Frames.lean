import PinnedStack.Proofs.Host.Ways

/-!
# What changes on a disk

* `Disk.WritesOnly` — a change of the one file that a path leads to.
* `Disk.Apart` — two paths that lead to different files. A change at one keeps the other
  (`Disk.WritesOnly.keeps`), and files that are apart stay apart (`Disk.WritesOnly.apart`).
* `Disk.Writes.keeps` — many changes keep what is apart from all of them.
* `Disk.write_only`, `Disk.unlink_only` — files that are written and removed are such changes.
-/

namespace PinnedStack.Disk

variable {d d' : Disk} {path other : String} {names p : List String} {bytes : List UInt8}

/-! ## Places and files -/

theorem find?_erase (d : Disk) (names other : List String) :
    (d.erase names).find? other = if other = names then none else d.find? other := by
  unfold find? erase
  rw [List.find?_filter]
  by_cases same : other = names
  · subst same
    rw [if_pos rfl]
    simp
  · rw [if_neg same]
    congr 2
    funext x
    by_cases found : x.1 = other
    · simp [found, same]
    · simp [found]

theorem find?_put (d : Disk) (names other : List String) (e : Entry) :
    (d.put names e).find? other = if other = names then some e else d.find? other := by
  by_cases same : other = names
  · subst same
    simp [find?, put]
  · have others := find?_erase d names other
    rw [if_neg same] at others ⊢
    rw [← others, find?, put, List.find?_cons_of_neg (by simpa using Ne.symm same)]
    rfl

theorem find?_putFile (d : Disk) (names other : List String) (f : File) :
    (d.putFile names f).find? other
      = if other = names then some (.file d.files.size) else d.find? other :=
  find?_put d names other _

theorem file_setBytes_of_ne {id id' : Nat} (ne : id ≠ id') :
    (d.setBytes id' bytes).file id = d.file id := by
  unfold file setBytes
  rw [Array.getElem?_modify, if_neg (Ne.symm ne)]

theorem file_setBytes_same {id : Nat} (lt : id < d.files.size) :
    ((d.setBytes id bytes).file id).bytes = bytes := by
  unfold file setBytes
  rw [Array.getElem?_modify, if_pos rfl, Array.getElem?_eq_getElem lt]
  rfl

theorem file_putFile {id : Nat} {f : File} (lt : id < d.files.size) :
    (d.putFile names f).file id = d.file id := by
  unfold file putFile
  rw [Array.getElem?_push_lt lt, Array.getElem?_eq_getElem lt]

/-! ## Changes of one file -/

/-- Only the file that a path leads to is written: it may be made, changed, replaced by a new one or
removed. -/
structure WritesOnly (d : Disk) (path : String) (d' : Disk) : Prop where
  here : d'.here = d.here
  size : d.files.size ≤ d'.files.size
  elsewhere : ∀ names, d.locate path ≠ .ok names → d'.find? names = d.find? names
  there : ∀ names, d.locate path = .ok names → d'.find? names = d.find? names
    ∨ (∀ e, d.find? names = some e → e.isRoad = false)
      ∧ ∀ e, d'.find? names = some e → ∃ id, e = .file id ∧ d.files.size ≤ id ∧ id < d'.files.size
  files : ∀ id < d.files.size, d.entry path ≠ .ok (.file id) → d'.file id = d.file id

/-- What a path leads to stays as it is. -/
structure Keeps (d : Disk) (path : String) (d' : Disk) : Prop where
  entry : ∀ e, d.entry path = .ok e → d'.entry path = .ok e
  file : ∀ id, d.entry path = .ok (.file id) → d'.file id = d.file id

/-- Two paths lead to no common file, under one name or two, and to no common place for one. -/
structure Apart (d : Disk) (path other : String) : Prop where
  places : ∀ p, d.locate path = .ok p → d.locate other = .ok p →
    ∃ refusal, d.find? p = some (.directory refusal)
  files : ∀ id, d.entry path = .ok (.file id) → d.entry other ≠ .ok (.file id)

theorem Apart.symm (h : d.Apart path other) : d.Apart other path :=
  ⟨fun p first second => h.places p second first, fun id first second => h.files id second first⟩

namespace Keeps

theorem refl (d : Disk) (path : String) : d.Keeps path d := ⟨fun _ => id, fun _ _ => rfl⟩

theorem trans {d'' : Disk} (h : d.Keeps path d') (h' : d'.Keeps path d'') : d.Keeps path d'' :=
  ⟨fun e found => h'.entry e (h.entry e found),
    fun id found => (h'.file id (h.entry _ found)).trans (h.file id found)⟩

theorem read (h : d.Keeps path d') (before : d.read path = .ok bytes) :
    d'.read path = .ok bytes := by
  cases found : d.entry path with
  | error cause =>
    rw [Disk.read, found] at before
    cases before
  | ok e =>
    rw [Disk.read, found] at before
    rw [Disk.read, h.entry e found]
    cases e with
    | file id =>
      rw [← before]
      simp only [h.file id found]
    | device v => cases v <;> exact before
    | _ => exact before

theorem readText {text : String} (h : d.Keeps path d') (before : d.readText path = .ok text) :
    d'.readText path = .ok text := by
  cases found : d.read path with
  | error cause =>
    rw [Disk.readText, found] at before
    cases before
  | ok bytes =>
    rw [Disk.readText, found] at before
    rw [Disk.readText, h.read found]
    exact before

end Keeps

namespace WritesOnly

variable {e : Entry}

theorem refl (d : Disk) (path : String) : d.WritesOnly path d :=
  ⟨rfl, Nat.le_refl _, fun _ _ => rfl, fun _ _ => .inl rfl, fun _ _ _ => rfl⟩

/-- What is found afterwards was there before or is a new file. -/
theorem found (h : d.WritesOnly path d') (now : d'.find? names = some e) :
    d.find? names = some e ∨ d.locate path = .ok names
      ∧ ∃ id, e = .file id ∧ d.files.size ≤ id ∧ id < d'.files.size := by
  by_cases here : d.locate path = .ok names
  · rcases h.there names here with same | ⟨-, new⟩
    · exact .inl (same ▸ now)
    · exact .inr ⟨here, new e now⟩
  · exact .inl (h.elsewhere names here ▸ now)

theorem roads (h : d.WritesOnly path d') : d.Roads d' := by
  refine ⟨h.here, fun names e road => ⟨fun now => ?_, fun before => ?_⟩⟩
  · rcases h.found now with before | ⟨-, id, rfl, -⟩
    · exact before
    · cases road
  · by_cases here : d.locate path = .ok names
    · rcases h.there names here with same | ⟨plain, -⟩
      · exact same.trans before
      · rw [plain e before] at road
        cases road
    · exact (h.elsewhere names here).trans before

theorem sound (h : d.WritesOnly path d') (sound : d.Sound) : d'.Sound := by
  refine ⟨fun names id now => ?_, fun names refusal now => ?_⟩
  · rcases h.found now with before | ⟨-, new, same, -, lt⟩
    · exact Nat.lt_of_lt_of_le (sound.files names id before) h.size
    · cases same
      exact lt
  · obtain ⟨refusal', above⟩ := sound.above names refusal ((h.roads.kept _ _ rfl).1 now)
    exact ⟨refusal', (h.roads.kept _ _ rfl).2 above⟩

/-- **What another path leads to stays as it is.** -/
theorem keeps (h : d.WritesOnly path d') (sound : d.Sound) (apart : d.Apart path other) :
    d.Keeps other d' := by
  refine ⟨fun e before => ?_, fun id before => ?_⟩
  · obtain ⟨p, located, found⟩ := entry_eq_ok.1 before
    refine entry_eq_ok.2 ⟨p, h.roads.locate.2 located, ?_⟩
    by_cases here : d.locate path = .ok p
    · obtain ⟨refusal, directory⟩ := apart.places p here located
      obtain rfl : e = .directory refusal := Option.some.inj (found.symm.trans directory)
      exact (h.roads.kept _ _ rfl).2 directory
    · exact (h.elsewhere p here).trans found
  · obtain ⟨p, -, found⟩ := entry_eq_ok.1 before
    exact h.files id (sound.files p id found) fun same => apart.files id same before

/-- **Files that are apart stay apart**, whichever is written. -/
theorem apart {a b : String} (h : d.WritesOnly path d') (sound : d.Sound) (apart : d.Apart a b) :
    d'.Apart a b := by
  have common : ∀ p, d'.locate a = .ok p → d'.locate b = .ok p →
      ∃ refusal, d'.find? p = some (.directory refusal) := by
    intro p first second
    obtain ⟨refusal, directory⟩ :=
      apart.places p (h.roads.locate.1 first) (h.roads.locate.1 second)
    exact ⟨refusal, (h.roads.kept _ _ rfl).2 directory⟩
  refine ⟨common, fun id first second => ?_⟩
  obtain ⟨p, here, atFirst⟩ := entry_eq_ok.1 first
  obtain ⟨q, there, atSecond⟩ := entry_eq_ok.1 second
  have located := h.roads.locate.1 here
  have located' := h.roads.locate.1 there
  -- A new file has a number that no file had, and only one of the two places can have it.
  rcases h.found atFirst with old | ⟨written, new, same, le, -⟩ <;>
    rcases h.found atSecond with old' | ⟨written', new', same', le', -⟩
  · exact apart.files id (entry_eq_ok.2 ⟨p, located, old⟩) (entry_eq_ok.2 ⟨q, located', old'⟩)
  · cases same'
    exact Nat.not_lt.2 le' (sound.files p _ old)
  · cases same
    exact Nat.not_lt.2 le (sound.files q _ old')
  · obtain rfl : p = q := Except.ok.inj (written.symm.trans written')
    obtain ⟨refusal, directory⟩ := common p here there
    rw [directory] at atFirst
    cases atFirst

end WritesOnly

/-- Changes of one file after the other. -/
inductive Writes : Disk → List String → Disk → Prop where
  | done {d : Disk} : Writes d [] d
  | next {d d' last : Disk} {path : String} {paths : List String} (first : d.WritesOnly path d')
      (later : Writes d' paths last) : Writes d (path :: paths) last

/-- **What a path leads to that is apart from all files that change stays as it is.** -/
theorem Writes.keeps {paths : List String} {last : Disk} (h : d.Writes paths last)
    (sound : d.Sound) (apart : ∀ path ∈ paths, d.Apart path other) : d.Keeps other last := by
  induction h with
  | done => exact .refl _ _
  | next first _ ih =>
    have here := first.keeps sound (apart _ (List.mem_cons_self ..))
    have later := ih (first.sound sound) fun path mem =>
      first.apart sound (apart path (List.mem_cons_of_mem _ mem))
    exact here.trans later

/-! ## Files that are written -/

/-- What is opened is the file that is there, a new one, or a device. -/
theorem open?_eq_ok {mode : Nat} {opened : Opened}
    (opens : d.open? path mode = .ok (opened, d')) :
    ∃ p, d.locate path = .ok p
      ∧ ((∃ id, d.find? p = some (.file id) ∧ opened = .file id ∧ d' = d)
        ∨ (d.find? p = none ∧ opened = .file d.files.size ∧ d' = d.putFile p ⟨[], mode⟩)
        ∨ ∃ device, d.find? p = some (.device device) ∧ opened = .device device ∧ d' = d) := by
  unfold open? at opens
  split at opens
  · split at opens <;> cases opens
  split at opens
  · cases opens
  next p located =>
    refine ⟨p, located, ?_⟩
    split at opens
    · next found =>
      split at opens
      · cases opens
      · cases opens
        exact .inr (.inl ⟨found, rfl, rfl⟩)
    · cases opens
    · next id found =>
      cases opens
      exact .inl ⟨id, found, rfl, rfl⟩
    · cases opens
    · cases opens
    · next device _ found =>
      cases opens
      exact .inr (.inr ⟨device, found, rfl, rfl⟩)
    · cases opens

/-- A write goes to the file that is there, makes a new one, or is swallowed by a device. -/
theorem write_eq_ok (written : d.write path bytes = .ok d') :
    ∃ p, d.locate path = .ok p
      ∧ ((∃ id, d.find? p = some (.file id) ∧ d' = d.setBytes id bytes)
        ∨ (d.find? p = none ∧ d' = (d.putFile p ⟨[], plainMode⟩).setBytes d.files.size bytes)
        ∨ ∃ device, d.find? p = some (.device device) ∧ d' = d) := by
  unfold write at written
  split at written
  · cases written
  · next id next opens =>
    cases written
    obtain ⟨p, located, ⟨_, found, same, rfl⟩ | ⟨found, same, rfl⟩ | ⟨_, _, same, _⟩⟩ :=
      open?_eq_ok opens
    · cases same
      exact ⟨p, located, .inl ⟨_, found, rfl⟩⟩
    · cases same
      exact ⟨p, located, .inr (.inl ⟨found, rfl⟩)⟩
    · cases same
  · next device next opens =>
    split at written
    · cases written
    · cases written
      obtain ⟨p, located, ⟨_, _, same, _⟩ | ⟨_, same, _⟩ | ⟨_, found, _, rfl⟩⟩ := open?_eq_ok opens
      · cases same
      · cases same
      · exact ⟨p, located, .inr (.inr ⟨_, found, rfl⟩)⟩

/-- **A write changes nothing but the file that its path leads to.** -/
theorem write_only (written : d.write path bytes = .ok d') : d.WritesOnly path d' := by
  obtain ⟨p, located, ⟨id, found, rfl⟩ | ⟨found, rfl⟩ | ⟨device, -, same⟩⟩ := write_eq_ok written
  · refine ⟨rfl, by simp [setBytes], fun _ _ => rfl, fun _ _ => .inl rfl, fun other _ apart => ?_⟩
    refine file_setBytes_of_ne fun same => apart ?_
    rw [same]
    exact entry_eq_ok.2 ⟨p, located, found⟩
  · have size : ((d.putFile p ⟨[], plainMode⟩).setBytes d.files.size bytes).files.size
        = d.files.size + 1 := by simp [setBytes, putFile]
    refine ⟨rfl, by omega, fun names ne => ?_, fun names same => .inr ⟨?_, ?_⟩, fun id lt _ => ?_⟩
    · have other : names ≠ p := by
        rintro rfl
        exact ne located
      exact (find?_putFile d p names ⟨[], plainMode⟩).trans (if_neg other)
    · obtain rfl : p = names := Except.ok.inj (located.symm.trans same)
      intro e before
      rw [found] at before
      cases before
    · obtain rfl : p = names := Except.ok.inj (located.symm.trans same)
      intro e now
      have new := (find?_putFile d p p ⟨[], plainMode⟩).trans (if_pos rfl)
      exact ⟨d.files.size, Option.some.inj (now.symm.trans new), Nat.le_refl _, by omega⟩
    · rw [file_setBytes_of_ne (Nat.ne_of_lt lt), file_putFile lt]
  · rw [same]
    exact .refl d path

/-- What was written can be read, unless a device swallowed it. -/
theorem read_write (sound : d.Sound) (file : ∀ device, d.entry path ≠ .ok (.device device))
    (written : d.write path bytes = .ok d') : d'.read path = .ok bytes := by
  have roads := (write_only written).roads
  obtain ⟨p, located, ⟨id, found, rfl⟩ | ⟨found, rfl⟩ | ⟨device, found, rfl⟩⟩ := write_eq_ok written
  · have now := entry_eq_ok.2 ⟨p, located, found⟩
    have same : ((d.setBytes id bytes).file id).bytes = bytes :=
      file_setBytes_same (sound.files p id found)
    have there : (d.setBytes id bytes).entry path = .ok (.file id) :=
      entry_eq_ok.2 ⟨p, roads.locate.2 located, found⟩
    rw [read, there]
    exact congrArg Except.ok same
  · have new := (find?_putFile d p p ⟨[], plainMode⟩).trans (if_pos rfl)
    have there := entry_eq_ok.2 ⟨p, roads.locate.2 located, new⟩
    rw [read, there]
    exact congrArg Except.ok (file_setBytes_same (by simp [putFile]))
  · exact absurd (entry_eq_ok.2 ⟨p, located, found⟩) (file device)

/-- Nothing is written where a path leads to a directory. -/
theorem write_directory
    (directory : ∀ p, d.locate path = .ok p → ∃ refusal, d.find? p = some (.directory refusal)) :
    d.write path bytes ≠ .ok d' := by
  intro written
  obtain ⟨p, located, ⟨_, found, _⟩ | ⟨found, _⟩ | ⟨_, found, _⟩⟩ := write_eq_ok written
  all_goals
    obtain ⟨refusal, here⟩ := directory p located
    rw [here] at found
    cases found

/-! ## Files that are removed -/

/-- A way that ends at no link leads there too if links at its end are followed. -/
theorem Way.final {links : Nat} {pieces : List String}
    (way : d.Way false links names pieces p) (plain : ∀ target, d.find? p ≠ some (.link target)) :
    d.Way true links names pieces p := by
  induction way with
  | done => exact .done
  | stay here dot _ ih => exact .stay here dot (ih plain)
  | up here _ ih => exact .up here (ih plain)
  | on here name unlinked _ ih => exact .on here name unlinked (ih plain)
  | stop here name link _ => exact absurd link (plain _)
  | follow here name link _ _ ih => exact .follow here name link (fun h => by cases h.2) (ih plain)

theorem locate_of_locateLink (located : d.locateLink path = .ok p)
    (plain : ∀ target, d.find? p ≠ some (.link target)) : d.locate path = .ok p := by
  obtain ⟨names, begins, way⟩ := locateLink_eq_ok.1 located
  exact locate_eq_ok.2 ⟨names, begins, way.final plain⟩

/-- **Removing a file changes nothing else**, if its name is no symbolic link. -/
theorem unlink_only (unlinked : ∀ target, d.entryLink path ≠ .ok (.link target))
    (removed : d.unlink path = .ok d') : d.WritesOnly path d' := by
  unfold unlink at removed
  split at removed
  · cases removed
  next p located =>
    split at removed
    · cases removed
    · cases removed
    next e directory found =>
      cases removed
      have plain : ∀ target, d.find? p ≠ some (.link target) := fun target link =>
        unlinked target (entryLink_eq_ok.2 ⟨p, located, link⟩)
      have here := locate_of_locateLink located plain
      refine ⟨rfl, Nat.le_refl _, fun names ne => ?_, fun names same => .inr ⟨?_, ?_⟩,
        fun _ _ _ => rfl⟩
      · rw [find?_erase, if_neg]
        rintro rfl
        exact ne here
      · obtain rfl : p = names := Except.ok.inj (here.symm.trans same)
        intro e' before
        obtain rfl : e = e' := Option.some.inj (found.symm.trans before)
        cases e with
        | directory refusal => exact absurd rfl (directory refusal)
        | link target => exact absurd found (plain target)
        | _ => rfl
      · obtain rfl : p = names := Except.ok.inj (here.symm.trans same)
        intro e' now
        rw [find?_erase, if_pos rfl] at now
        cases now

theorem exists_unlink {id : Nat} (found : d.entryLink path = .ok (.file id)) :
    ∃ d', d.unlink path = .ok d' ∧ d'.entry path = .error .noEntry := by
  obtain ⟨p, located, file⟩ := entryLink_eq_ok.1 found
  have removed : d.unlink path = .ok (d.erase p) := by
    rw [unlink, located]
    simp only [file]
  have roads := (unlink_only (fun target link => by rw [found] at link; cases link) removed).roads
  have there : (d.erase p).locate path = .ok p := by
    refine roads.locate.2 (locate_of_locateLink located fun target link => ?_)
    rw [file] at link
    cases link
  refine ⟨d.erase p, removed, ?_⟩
  rw [entry, there]
  simp only [find?_erase, if_pos]

/-! ## Files in the working directory -/

open PinnedStack.Path

/-- Is a path a name in the working directory? -/
def IsPlain (path : String) : Prop :=
  '/' ∉ path.toList ∧ '\x00' ∉ path.toList ∧ ¬IsDots path.toList ∧ path.utf8ByteSize ≤ maxName

instance (path : String) : Decidable (IsPlain path) :=
  inferInstanceAs (Decidable (_ ∧ _ ∧ _ ∧ _))

/-- Nothing but files lies on a disk, all in the root, which is the working directory. -/
structure Flat (d : Disk) : Prop where
  here : d.here = []
  root : d.find? [] = some (.directory none)
  files : ∀ names e, names ≠ [] → d.find? names = some e → ∃ id, e = .file id

namespace Flat

theorem only (h : d.Flat) (only : d.WritesOnly path d') : d'.Flat := by
  refine ⟨only.here.trans h.here, (only.roads.kept _ _ rfl).2 h.root, fun names e ne now => ?_⟩
  rcases only.found now with before | ⟨-, id, same, -⟩
  · exact h.files names e ne before
  · exact ⟨id, same⟩

theorem start (h : d.Flat) (plain : IsPlain path) :
    d.start path = .ok ([], path.splitOn "/") := by
  obtain ⟨slash, zero, dots, size⟩ := plain
  have nonempty : path ≠ "" := by
    rintro rfl
    exact dots (.inl rfl)
  have short : ¬path.utf8ByteSize > maxPath := Nat.not_lt.2 (size.trans (by decide))
  have relative : path.toList.head? ≠ some '/' := fun head => slash (List.mem_of_head? head)
  rw [Disk.start, if_neg (by simpa using zero), if_neg nonempty, if_neg short, if_neg relative,
    h.here]

/-- A name leads to what has it in the working directory, where no links are. -/
theorem way (h : d.Flat) (plain : IsPlain path) (final : Bool) :
    d.Way final maxLinks [] (path.splitOn "/") [path] := by
  obtain ⟨slash, -, dots, size⟩ := plain
  have single : path.toList.splitOnP (· == '/') = [path.toList] :=
    List.splitOnP_eq_singleton fun c mem => by
      rw [beq_eq_false_iff_ne]
      rintro rfl
      exact slash mem
  have name : IsName path := by
    obtain ⟨dot, up⟩ := not_or.1 (mt ofList_dots.1 dots)
    rw [String.ofList_toList] at dot up
    exact ⟨dot, up, Nat.not_lt.2 size⟩
  have split : path.splitOn "/" = [path] := by
    rw [splitOn_eq, single, List.map_singleton, String.ofList_toList]
  rw [split]
  refine .on h.root name (fun target link => ?_) .done
  obtain ⟨id, file⟩ := h.files _ _ (List.cons_ne_nil _ _) link
  cases file

theorem locate (h : d.Flat) (plain : IsPlain path) : d.locate path = .ok [path] :=
  locate_eq_ok.2 ⟨[], h.start plain, h.way plain true⟩

theorem locateLink (h : d.Flat) (plain : IsPlain path) : d.locateLink path = .ok [path] :=
  locateLink_eq_ok.2 ⟨[], h.start plain, h.way plain false⟩

/-- Files can be made and written in the working directory. -/
theorem exists_write (h : d.Flat) (plain : IsPlain path) (bytes : List UInt8) :
    ∃ d', d.write path bytes = .ok d' := by
  have name : askedIn? path = none := by
    refine if_pos (.inl fun head => plain.1 ?_)
    exact List.mem_reverse.1 (List.mem_of_head? head)
  have root := h.root
  unfold write open?
  rw [name, h.locate plain]
  cases found : d.find? [path] with
  | none =>
    simp only [found, List.dropLast_singleton, root]
    exact ⟨_, rfl⟩
  | some e =>
    obtain ⟨id, rfl⟩ := h.files _ _ (List.cons_ne_nil _ _) found
    simp only [found]
    exact ⟨_, rfl⟩

theorem unlinked (h : d.Flat) (plain : IsPlain path) (target : String) :
    d.entryLink path ≠ .ok (.link target) := by
  intro link
  obtain ⟨p, located, found⟩ := entryLink_eq_ok.1 link
  obtain rfl := Except.ok.inj (located.symm.trans (h.locateLink plain))
  obtain ⟨id, file⟩ := h.files _ _ (List.cons_ne_nil _ _) found
  cases file

/-- What was written in the working directory can be read. -/
theorem read_write (h : d.Flat) (sound : d.Sound) (plain : IsPlain path)
    (written : d.write path bytes = .ok d') : d'.read path = .ok bytes := by
  refine Disk.read_write sound (fun device entry => ?_) written
  obtain ⟨p, located, found⟩ := entry_eq_ok.1 entry
  obtain rfl := Except.ok.inj (located.symm.trans (h.locate plain))
  obtain ⟨id, file⟩ := h.files _ _ (List.cons_ne_nil _ _) found
  cases file

/-- What can be read in the working directory is a file. -/
theorem exists_file (h : d.Flat) (plain : IsPlain path) (read : d.read path = .ok bytes) :
    ∃ id, d.entryLink path = .ok (.file id) := by
  cases entry : d.entry path with
  | error e =>
    rw [Disk.read, entry] at read
    cases read
  | ok e =>
    obtain ⟨p, located, found⟩ := entry_eq_ok.1 entry
    obtain rfl := Except.ok.inj (located.symm.trans (h.locate plain))
    obtain ⟨id, rfl⟩ := h.files _ _ (List.cons_ne_nil _ _) found
    exact ⟨id, entryLink_eq_ok.2 ⟨[path], h.locateLink plain, found⟩⟩

end Flat

/-- A disk with one file. -/
def single (name text : String) : Disk :=
  ⟨[([], .directory none), ([name], .file 0)], #[⟨utf8Bytes text, plainMode⟩], []⟩

theorem find?_single {name text : String} {e : Entry}
    (found : (single name text).find? names = some e) :
    names = [] ∧ e = .directory none ∨ names = [name] ∧ e = .file 0 := by
  unfold find? single at found
  by_cases root : names = []
  · subst root
    cases found
    exact .inl ⟨rfl, rfl⟩
  · by_cases here : names = [name]
    · subst here
      rw [List.find?_cons_of_neg (by simp), List.find?_cons_of_pos (by simp)] at found
      cases found
      exact .inr ⟨rfl, rfl⟩
    · rw [List.find?_cons_of_neg (by simpa using Ne.symm root),
        List.find?_cons_of_neg (by simpa using Ne.symm here)] at found
      cases found

theorem sound_single (name text : String) : (single name text).Sound := by
  refine ⟨fun names id found => ?_, fun names refusal found => ?_⟩
  · rcases find?_single found with ⟨-, same⟩ | ⟨-, same⟩
    · cases same
    · cases same
      exact Nat.one_pos
  · rcases find?_single found with ⟨rfl, -⟩ | ⟨-, same⟩
    · exact ⟨refusal, found⟩
    · cases same

theorem flat_single (name text : String) : (single name text).Flat := by
  refine ⟨rfl, rfl, fun names e ne found => ?_⟩
  rcases find?_single found with ⟨same, -⟩ | ⟨-, same⟩
  · exact absurd same ne
  · exact ⟨0, same⟩

theorem readText_single {name text : String} (plain : IsPlain name) :
    (single name text).readText name = .ok text := by
  have found : (single name text).find? [name] = some (.file 0) := by
    unfold find? single
    rw [List.find?_cons_of_neg (by simp), List.find?_cons_of_pos (by simp)]
    rfl
  have there : (single name text).entry name = .ok (.file 0) :=
    entry_eq_ok.2 ⟨[name], (flat_single name text).locate plain, found⟩
  have bytes : (single name text).read name = .ok (utf8Bytes text) := by
    rw [read, there]
    rfl
  rw [readText, bytes]
  simp only [ofUtf8?_utf8Bytes]

end PinnedStack.Disk
