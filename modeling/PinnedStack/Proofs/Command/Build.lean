import PinnedStack.Command.Run
import PinnedStack.Proofs.Host.Frames
import PinnedStack.Proofs.Typing.Rules

/-!
# The files of a build

* `CompileOptions.built` — the files that a build is to write. `CompileOptions.Clear` — they are
  apart from each other and from the source. `CompileOptions.clear_of_extension` — so they are where
  the source has an extension of its own.
* `Launch.WritesOwn` — a tool that writes the file that it is told to, and nothing else.
* `Built` — the stages of a build. `Outcome.compiling_builds` — a run that succeeds has gone through
  them.
* `Outcome.compiling_keeps` — a build leaves its source, its text and its executable.
* `Stamp.object_is_executable` — one that does not: the object has the name of the executable.
-/

namespace PinnedStack

open PinnedStack.Path

/-! ## The files of a build -/

/-- The assembly text, the object and the executable of a build. -/
def CompileOptions.built (o : CompileOptions) : List String :=
  [withExtension o.target "asm", withExtension o.target "o", o.target]

/-- The files of a build are apart on a disk: the executable has not the extension of the text or of
the object, the source is none of them, and none of them is another under a second name. -/
structure CompileOptions.Clear (o : CompileOptions) (d : Disk) : Prop where
  extension : ∀ name, fileName? o.target = some name →
    ∀ ext ∈ ["asm", "o"], extensionOf name ≠ ext.toList
  source : ∀ path ∈ o.built, d.Apart o.input path
  unlinked : ∀ path ∈ o.built, ∀ target, d.entryLink path ≠ .ok (.link target)
  unshared : o.built.Pairwise fun path other =>
    ∀ id, d.entry path = .ok (.file id) → d.entry other ≠ .ok (.file id)
  device : ∀ device, d.entry (withExtension o.target "asm") ≠ .ok (.device device)

theorem not_isDots_append {stem ext : List Char} (ne : stem ≠ []) (ne' : ext ≠ []) :
    ¬IsDots (stem ++ '.' :: ext) := by
  have first := List.length_pos_iff.2 ne
  have last := List.length_pos_iff.2 ne'
  have length : (stem ++ '.' :: ext).length = stem.length + (ext.length + 1) := by
    rw [List.length_append, List.length_cons]
  rintro (eq | eq | eq)
  all_goals
    rw [eq] at length
    simp only [List.length_nil, List.length_cons] at length
    omega

section Apart

variable {d : Disk} {o : CompileOptions} {path other : String}

/-- Paths that end in different names are apart, if no link and no second name of a file is
there. -/
theorem Disk.apart_of_lastPiece (proper : ¬IsDots (lastPiece path))
    (proper' : ¬IsDots (lastPiece other)) (ne : lastPiece path ≠ lastPiece other)
    (unlinked : ∀ target, d.entryLink path ≠ .ok (.link target))
    (unlinked' : ∀ target, d.entryLink other ≠ .ok (.link target))
    (unshared : ∀ id, d.entry path = .ok (.file id) → d.entry other ≠ .ok (.file id)) :
    d.Apart path other := by
  refine ⟨fun p located located' => absurd ?_ ne, unshared⟩
  have first := locate_name proper unlinked located
  have second := locate_name proper' unlinked' located'
  exact String.ofList_injective (Option.some.inj (first.symm.trans second))

theorem Disk.apart_of_dots (sound : d.Sound) (dots : IsDots (lastPiece other))
    (unshared : ∀ id, d.entry path = .ok (.file id) → d.entry other ≠ .ok (.file id)) :
    d.Apart path other :=
  ⟨fun _ _ located => locate_dots sound dots located, unshared⟩

/-- What the paths of a build end in, where the text can be written: in names, which differ. -/
theorem CompileOptions.Clear.names (clear : o.Clear d) (sound : d.Sound) {bytes : List UInt8}
    {d' : Disk} (written : d.write (withExtension o.target "asm") bytes = .ok d') :
    (∀ ext ∈ ["asm", "o"], ¬IsDots (lastPiece (withExtension o.target ext))
        ∧ (¬IsDots (lastPiece o.target) →
            lastPiece (withExtension o.target ext) ≠ lastPiece o.target))
      ∧ lastPiece (withExtension o.target "asm") ≠ lastPiece (withExtension o.target "o") := by
  rcases withExtension_spells o.target with ⟨dots, same⟩ | ⟨stem, ne, spells⟩
  · -- The text would be written to a directory.
    rw [same] at written
    exact absurd written (Disk.write_directory fun p located => Disk.locate_dots sound dots located)
  · refine ⟨fun ext mem => ?_, ?_⟩
    · have plain : '/' ∉ ext.toList ∧ '.' ∉ ext.toList ∧ ext.toList ≠ [] := by
        revert ext
        decide
      rw [spells ext plain.1]
      refine ⟨not_isDots_append ne plain.2.2, fun proper same => ?_⟩
      refine clear.extension _ (fileName?_of_not_dots proper) ext mem ?_
      rw [← same, extensionOf_append ne plain.2.1]
    · rw [spells "asm" (by decide), spells "o" (by decide)]
      simp

/-- **The files of a build are apart.** -/
theorem CompileOptions.Clear.apart (clear : o.Clear d) (sound : d.Sound) {bytes : List UInt8}
    {d' : Disk} (written : d.write (withExtension o.target "asm") bytes = .ok d') :
    o.built.Pairwise d.Apart := by
  obtain ⟨names, differ⟩ := clear.names sound written
  obtain ⟨properText, otherText⟩ := names "asm" (by decide)
  obtain ⟨properObject, otherObject⟩ := names "o" (by decide)
  have unshared := clear.unshared
  have unlinked := clear.unlinked
  simp only [built, List.pairwise_cons, List.mem_cons, List.not_mem_nil, or_false, forall_eq_or_imp,
    forall_eq, List.Pairwise.nil, and_true, IsEmpty.forall_iff, implies_true] at unshared unlinked ⊢
  obtain ⟨⟨textObject, textTarget⟩, objectTarget⟩ := unshared
  obtain ⟨text, object, target⟩ := unlinked
  refine ⟨⟨?_, ?_⟩, ?_⟩
  · exact Disk.apart_of_lastPiece properText properObject differ text object textObject
  · by_cases dots : IsDots (lastPiece o.target)
    · exact Disk.apart_of_dots sound dots textTarget
    · exact Disk.apart_of_lastPiece properText dots (otherText dots) text target textTarget
  · by_cases dots : IsDots (lastPiece o.target)
    · exact Disk.apart_of_dots sound dots objectTarget
    · exact Disk.apart_of_lastPiece properObject dots (otherObject dots) object target objectTarget

/-- **The paths of a build are different.** -/
theorem CompileOptions.Clear.nodup (clear : o.Clear d) (sound : d.Sound) {bytes : List UInt8}
    {d' : Disk} (written : d.write (withExtension o.target "asm") bytes = .ok d') :
    o.built.Nodup := by
  obtain ⟨names, differ⟩ := clear.names sound written
  have text : withExtension o.target "asm" ≠ withExtension o.target "o" :=
    fun same => differ (congrArg lastPiece same)
  have executable : ∀ ext ∈ ["asm", "o"], withExtension o.target ext ≠ o.target := by
    intro ext mem same
    obtain ⟨proper, other⟩ := names ext mem
    rw [same] at proper other
    exact other proper rfl
  simp [built, text, executable "asm" (by decide), executable "o" (by decide)]

/-- A path that can be read is no path that is apart from it. -/
theorem Disk.Apart.ne {text : String} (apart : d.Apart path other)
    (read : d.readText path = .ok text) : path ≠ other := by
  rintro rfl
  unfold Disk.readText Disk.read at read
  cases found : d.entry path with
  | error e =>
    rw [found] at read
    cases read
  | ok e =>
    obtain ⟨p, located, here⟩ := entry_eq_ok.1 found
    obtain ⟨refusal, directory⟩ := apart.places p located located
    obtain rfl : e = .directory refusal := Option.some.inj (here.symm.trans directory)
    rw [found] at read
    cases read

/-- **What is built of a source that has an extension is apart from it**, if that is not the extension
of the text or of the object, and what is left without it has not either of these. -/
theorem CompileOptions.clear_of_extension {stem ext : List Char} (sound : d.Sound)
    (plain : o.output = none) (named : lastPiece o.input = stem ++ '.' :: ext) (ne : stem ≠ [])
    (ne' : ext ≠ []) (dotless : '.' ∉ ext) (other : ∀ e ∈ ["asm", "o"], ext ≠ e.toList)
    (extension : ∀ e ∈ ["asm", "o"], extensionOf stem ≠ e.toList)
    (unlinked : ∀ path ∈ o.input :: o.built, ∀ target, d.entryLink path ≠ .ok (.link target))
    (unshared : (o.input :: o.built).Pairwise fun path other =>
      ∀ id, d.entry path = .ok (.file id) → d.entry other ≠ .ok (.file id))
    (device : ∀ device, d.entry (withExtension o.target "asm") ≠ .ok (.device device)) :
    o.Clear d := by
  have proper : ¬IsDots (lastPiece o.input) := named ▸ not_isDots_append ne ne'
  have target : o.target = String.ofList stem := by
    rw [CompileOptions.target, plain, fileStem?, fileName?_of_not_dots proper, named]
    simp [stemOf_append ne dotless]
  have slashless := slash_notMem_lastPiece o.input
  rw [named, List.mem_append, not_or] at slashless
  have last : lastPiece o.target = stem := by
    rw [target, lastPiece_ofList slashless.1]
  obtain ⟨unsharedSource, unsharedBuilt⟩ := List.pairwise_cons.1 unshared
  have linkless := unlinked o.input (List.mem_cons_self ..)
  refine ⟨fun name found e mem => ?_, fun path mem => ?_,
    fun path mem => unlinked path (List.mem_cons_of_mem _ mem), unsharedBuilt, device⟩
  · by_cases dots : IsDots stem
    · rw [target] at found
      rcases dots with rfl | rfl | rfl
      · exact absurd rfl ne
      · cases found
      · cases found
    · rw [fileName?_of_not_dots (last ▸ dots), last] at found
      cases found
      exact extension e mem
  · have link := unlinked path (List.mem_cons_of_mem _ mem)
    have apart := unsharedSource path mem
    by_cases dots : IsDots (lastPiece path)
    · exact Disk.apart_of_dots sound dots apart
    refine Disk.apart_of_lastPiece proper dots (fun same => ?_) linkless link apart
    rw [named] at same
    have renamed : ∀ e ∈ ["asm", "o"], path ≠ withExtension o.target e := by
      intro e mem eq
      have plain : ∀ e ∈ ["asm", "o"], '/' ∉ e.toList ∧ '.' ∉ e.toList := by decide
      obtain ⟨slashless, dotless'⟩ := plain e mem
      rcases withExtension_spells o.target with ⟨nothing, cut⟩ | ⟨stem', ne'', spells⟩
      · rw [eq, cut] at dots
        exact dots nothing
      · rw [eq, spells e slashless] at same
        have extensions := congrArg extensionOf same
        rw [extensionOf_append ne dotless, extensionOf_append ne'' dotless'] at extensions
        exact other e mem extensions
    simp only [built, List.mem_cons, List.not_mem_nil, or_false] at mem
    rcases mem with text | object | executable
    · exact renamed "asm" (by decide) text
    · exact renamed "o" (by decide) object
    · rw [executable, last] at same
      simpa using congrArg List.length same

end Apart

/-! ## The stages of a build -/

/-- A tool writes the file that its first `-o` names, and nothing else. -/
def Launch.WritesOwn (launch : Launch) (tool : String) : Prop :=
  ∀ (d : Disk) (before : List String) (path : String) (after : List String) (reply : Reply),
    "-o" ∉ before → launch (plainCall d tool (before ++ "-o" :: path :: after)) = .ok reply →
      d.WritesOnly path (reply.diskFrom d)

/-- The stages of a build that succeeds: the disk after the text is written, after it is assembled,
after the object is linked, and last. -/
structure Built (launch : Launch) (d : Disk) (tools : Tools) (asm output : String)
    (written assembled linked last : Disk) : Prop where
  text : d.write (withExtension output "asm") (utf8Bytes asm) = .ok written
  assembles : runTool launch written tools.assembler
    ["-felf64", "-o", withExtension output "o", withExtension output "asm"] = (.ok (), assembled)
  links : runTool launch assembled tools.linker ["-o", output, withExtension output "o"]
    = (.ok (), linked)
  removes : last = match linked.unlink (withExtension output "o") with
    | .ok removed => removed
    | .error _ => linked

section Stages

variable {launch : Launch} {d last : Disk} {tools : Tools} {asm output : String}
  {o : CompileOptions}

theorem writeAssembly_eq_ok {path : String} {d' : Disk} :
    writeAssembly d path asm = .ok d' ↔ d.write path (utf8Bytes asm) = .ok d' := by
  unfold writeAssembly
  cases d.write path (utf8Bytes asm) <;> simp

theorem build_eq_ok : build launch d tools asm output = (.ok (), last)
    ↔ ∃ written assembled linked,
        Built launch d tools asm output written assembled linked last := by
  constructor
  · intro builds
    unfold build at builds
    simp only at builds
    split at builds
    · cases builds
    next written text =>
      split at builds
      · cases builds
      next assembled assembles =>
        split at builds
        · cases builds
        next linked links =>
          refine ⟨written, assembled, linked, writeAssembly_eq_ok.1 text, assembles, links, ?_⟩
          cases removed : linked.unlink (withExtension output "o") with
          | ok next =>
            rw [removed] at builds
            exact (Prod.mk.inj builds).2.symm
          | error e =>
            rw [removed] at builds
            exact (Prod.mk.inj builds).2.symm
  · rintro ⟨written, assembled, linked, built⟩
    have text := writeAssembly_eq_ok.2 built.text
    unfold build
    simp only [text, built.assembles, built.links]
    rw [built.removes]
    cases linked.unlink (withExtension output "o") with
    | ok removed => rfl
    | error e => rfl

/-- A run that succeeds has built an executable from what was read. -/
theorem Outcome.compiling_builds (builds : o.asmOnly = false)
    (done : (compiling launch d o).status = 0) :
    ∃ text asm last, d.readText o.input = .ok text
      ∧ compile { pinCapacity := o.pinCapacity } text o.input = .ok asm
      ∧ build launch d ⟨o.assembler, o.linker⟩ asm o.target = (.ok (), last)
      ∧ compiling launch d o = if o.run then running launch last o.target
          else said last s!"Compiled {o.target}" := by
  unfold compiling reading at done ⊢
  cases source : d.readText o.input with
  | error e =>
    rw [source] at done
    cases done
  | ok text =>
    simp only [source] at done ⊢
    cases compiled : compile { pinCapacity := o.pinCapacity } text o.input with
    | error e =>
      rw [compiled] at done
      cases done
    | ok asm =>
      simp only [compiled, builds] at done ⊢
      cases built : build launch d ⟨o.assembler, o.linker⟩ asm o.target with
      | mk result last =>
        cases result with
        | error fault =>
          simp only [built] at done
          cases done
        | ok _ => exact ⟨text, asm, last, rfl, compiled, built, by simp⟩

theorem Outcome.compiling_eq {text : String} (source : d.readText o.input = .ok text)
    (compiled : compile { pinCapacity := o.pinCapacity } text o.input = .ok asm)
    (builds : o.asmOnly = false)
    (built : build launch d ⟨o.assembler, o.linker⟩ asm o.target = (.ok (), last)) :
    compiling launch d o = if o.run then running launch last o.target
      else said last s!"Compiled {o.target}" := by
  unfold compiling reading
  simp only [source, compiled, builds, built, if_neg Bool.false_ne_true]

theorem runTool_only {tool path : String} (before : List String) {after : List String}
    {d' : Disk} {result : Except BuildFault Unit} (own : launch.WritesOwn tool)
    (first : "-o" ∉ before)
    (runs : runTool launch d tool (before ++ "-o" :: path :: after) = (result, d')) :
    d.WritesOnly path d' := by
  unfold runTool at runs
  split at runs
  · cases runs
    exact .refl d path
  · next reply answer =>
    have only := own d before path after reply first answer
    simp only at runs
    split at runs
    · cases runs
      exact only
    · cases runs
      exact only

/-! ## What is left -/

namespace Built

variable {written assembled linked : Disk}

/-- Each stage writes one file: the text, the object, the executable, and the object again. -/
theorem steps (built : Built launch d tools asm output written assembled linked last)
    (assembler : launch.WritesOwn tools.assembler) (linker : launch.WritesOwn tools.linker)
    (unlinked : ∀ target, d.entryLink (withExtension output "o") ≠ .ok (.link target)) :
    d.WritesOnly (withExtension output "asm") written
      ∧ written.WritesOnly (withExtension output "o") assembled
      ∧ assembled.WritesOnly output linked ∧ linked.WritesOnly (withExtension output "o") last := by
  have text := Disk.write_only built.text
  have object : written.WritesOnly (withExtension output "o") assembled :=
    runTool_only ["-felf64"] assembler (by decide) built.assembles
  have executable : assembled.WritesOnly output linked :=
    runTool_only [] linker (by decide) built.links
  refine ⟨text, object, executable, ?_⟩
  have removes := built.removes
  split at removes
  · next removed =>
    have roads := (text.roads.trans object.roads).trans executable.roads
    rw [removes]
    exact Disk.unlink_only (fun target link => unlinked target (roads.entryLink.1 link)) removed
  · rw [removes]
    exact .refl _ _

/-- What a build leaves depends on nothing but the text and the tools. -/
theorem unique {written' assembled' linked' last' : Disk}
    (built : Built launch d tools asm output written assembled linked last)
    (built' : Built launch d tools asm output written' assembled' linked' last') :
    linked = linked' ∧ last = last' := by
  obtain rfl : written = written' := Except.ok.inj (built.text.symm.trans built'.text)
  obtain rfl : assembled = assembled' :=
    (Prod.mk.inj (built.assembles.symm.trans built'.assembles)).2
  obtain rfl : linked = linked' := (Prod.mk.inj (built.links.symm.trans built'.links)).2
  exact ⟨rfl, built.removes.trans built'.removes.symm⟩

/-- **A build keeps what is apart from the files that it writes, its text and its executable.** -/
theorem keeps (built : Built launch d tools asm output written assembled linked last)
    (assembler : launch.WritesOwn tools.assembler) (linker : launch.WritesOwn tools.linker)
    (sound : d.Sound)
    (unlinked : ∀ target, d.entryLink (withExtension output "o") ≠ .ok (.link target))
    (apart : [withExtension output "asm", withExtension output "o", output].Pairwise d.Apart) :
    (∀ path, (∀ x ∈ [withExtension output "asm", withExtension output "o", output],
        d.Apart x path) → d.Keeps path last)
      ∧ written.Keeps (withExtension output "asm") last ∧ linked.Keeps output last := by
  obtain ⟨text, object, executable, removal⟩ := built.steps assembler linker unlinked
  clear built unlinked
  generalize withExtension output "asm" = asmPath at text apart ⊢
  generalize withExtension output "o" = objectPath at object removal apart ⊢
  simp only [List.pairwise_cons, List.mem_cons, List.not_mem_nil, or_false, forall_eq_or_imp,
    forall_eq, List.Pairwise.nil, and_true, IsEmpty.forall_iff, implies_true] at apart ⊢
  obtain ⟨⟨textObject, textOutput⟩, objectOutput⟩ := apart
  have sound' := text.sound sound
  have sound'' := object.sound sound'
  -- What is written at a stage stays if it is apart from what is written at all later ones.
  refine ⟨fun path ⟨offText, offObject, offOutput⟩ => ?_, ?_, ?_⟩
  · have all : d.Writes [asmPath, objectPath, output, objectPath] last :=
      .next text (.next object (.next executable (.next removal .done)))
    refine all.keeps sound fun x mem => ?_
    simp only [List.mem_cons, List.not_mem_nil, or_false] at mem
    rcases mem with rfl | rfl | rfl | rfl
    · exact offText
    · exact offObject
    · exact offOutput
    · exact offObject
  · have later : written.Writes [objectPath, output, objectPath] last :=
      .next object (.next executable (.next removal .done))
    refine later.keeps sound' fun x mem => ?_
    simp only [List.mem_cons, List.not_mem_nil, or_false] at mem
    rcases mem with rfl | rfl | rfl
    · exact (text.apart sound textObject).symm
    · exact (text.apart sound textOutput).symm
    · exact (text.apart sound textObject).symm
  · have off := executable.apart sound'' (object.apart sound' (text.apart sound objectOutput))
    exact removal.keeps (executable.sound sound'') off

/-- **An executable that has the path of the object is removed with it.** -/
theorem lost {id : Nat} (built : Built launch d tools asm output written assembled linked last)
    (same : withExtension output "o" = output) (file : linked.entryLink output = .ok (.file id)) :
    last.entry output = .error .noEntry := by
  obtain ⟨removed, unlinks, gone⟩ := Disk.exists_unlink file
  have removes := built.removes
  rw [same, unlinks] at removes
  rw [removes]
  exact gone

end Built

end Stages

/-! ## Tools that leave a stamp -/

/-- Runs tools that write their name to the file that the first `-o` names. -/
def stamping : Launch := fun call =>
  match (call.args.dropWhile (· ≠ "-o")).drop 1 with
  | path :: _ =>
      match call.disk.write path (utf8Bytes call.program) with
      | .ok d => .ok ⟨[], .exit 0, [], d⟩
      | .error e => .error e
  | [] => .ok ⟨[], .exit 1, [], call.disk⟩

namespace Stamp

variable {d d' : Disk} {tool path : String} {before after : List String}

theorem stamping_eq (first : "-o" ∉ before) :
    stamping (plainCall d tool (before ++ "-o" :: path :: after))
      = match d.write path (utf8Bytes tool) with
        | .ok d => .ok ⟨[], .exit 0, [], d⟩
        | .error e => .error e := by
  have named : ((before ++ "-o" :: path :: after).dropWhile (· ≠ "-o")).drop 1
      = path :: after := by
    rw [List.dropWhile_append_of_pos, List.dropWhile_cons_of_neg (by simp)]
    · rfl
    · intro arg mem
      rw [decide_eq_true_iff]
      rintro rfl
      exact first mem
  unfold stamping plainCall
  simp only [named]

theorem diskFrom_of_write {bytes : List UInt8} (written : d.write path bytes = .ok d')
    (reply : Reply) (same : reply.disk = d') : reply.diskFrom d = d' := by
  have here := (Disk.write_only written).here
  cases d'
  unfold Reply.diskFrom
  rw [same, ← here]

theorem writesOwn (tool : String) : stamping.WritesOwn tool := by
  intro d before path after reply first answer
  rw [stamping_eq first] at answer
  split at answer
  · next d' written =>
    cases answer
    rw [diskFrom_of_write written _ rfl]
    exact Disk.write_only written
  · cases answer

theorem runTool_eq (before : List String) (first : "-o" ∉ before)
    (written : d.write path (utf8Bytes tool) = .ok d') :
    runTool stamping d tool (before ++ "-o" :: path :: after) = (.ok (), d') := by
  unfold runTool
  rw [stamping_eq first, written]
  simp only [if_pos]
  rw [diskFrom_of_write written _ rfl]

/-- Tools that leave a stamp build what is named in the working directory. -/
theorem exists_built (flat : d.Flat) (sound : d.Sound) (tools : Tools) (asm : String)
    {output : String}
    (plain : ∀ x ∈ [withExtension output "asm", withExtension output "o", output], Disk.IsPlain x) :
    ∃ written assembled linked last,
      Built stamping d tools asm output written assembled linked last
      ∧ linked.Flat ∧ linked.read output = .ok (utf8Bytes tools.linker) := by
  have plain' := plain output (by simp)
  obtain ⟨written, text⟩ :=
    flat.exists_write (plain (withExtension output "asm") (by simp)) (utf8Bytes asm)
  have first := Disk.write_only text
  obtain ⟨assembled, object⟩ := (flat.only first).exists_write
    (plain (withExtension output "o") (by simp)) (utf8Bytes tools.assembler)
  have second := Disk.write_only object
  have flat' := (flat.only first).only second
  obtain ⟨linked, executable⟩ := flat'.exists_write plain' (utf8Bytes tools.linker)
  refine ⟨written, assembled, linked, _, ⟨text, runTool_eq ["-felf64"] (by decide) object,
    runTool_eq [] (by decide) executable, rfl⟩, flat'.only (Disk.write_only executable), ?_⟩
  exact flat'.read_write (second.sound (first.sound sound)) plain' executable

def options (output : Option String) : CompileOptions :=
  ⟨"p.st", output, false, false, 4096, "nasm", "ld"⟩

def disk : Disk := .single "p.st" "1 print"

theorem exists_compiling (output : Option String)
    (plain : ∀ x ∈ (options output).built, Disk.IsPlain x) :
    ∃ asm written assembled linked last, compile { pinCapacity := 4096 } "1 print" "p.st" = .ok asm
      ∧ Built stamping disk ⟨"nasm", "ld"⟩ asm (options output).target written assembled linked last
      ∧ linked.Flat ∧ linked.read (options output).target = .ok (utf8Bytes "ld")
      ∧ Outcome.compiling stamping disk (options output)
        = .said last s!"Compiled {(options output).target}" := by
  obtain ⟨program, tables, checked, -⟩ :=
    Except.exists_eq_ok (x := check { pinCapacity := 4096 } "1 print" "p.st") (q := fun _ => true)
      (by decide +kernel)
  have compiled : compile { pinCapacity := 4096 } "1 print" "p.st"
      = .ok (program.asm tables { pinCapacity := 4096 }) := by
    rw [compile, checked]
    rfl
  obtain ⟨written, assembled, linked, last, built, flat, executable⟩ :=
    exists_built (Disk.flat_single "p.st" "1 print") (Disk.sound_single "p.st" "1 print")
      ⟨"nasm", "ld"⟩ _ plain
  have source : disk.readText "p.st" = .ok "1 print" := Disk.readText_single (by decide)
  have run := Outcome.compiling_eq (o := options output) source compiled rfl
    (build_eq_ok.2 ⟨_, _, _, built⟩)
  exact ⟨_, written, assembled, linked, last, compiled, built, flat, executable, run⟩

/-- The files of a build are apart where none is there. -/
theorem clear_disk : (options none).Clear disk := by
  have flat : disk.Flat := Disk.flat_single "p.st" "1 print"
  have paths : (options none).built = ["p.asm", "p.o", "p"] := by decide
  have free : ∀ x ∈ (options none).built, Disk.IsPlain x ∧ disk.find? [x] = none := by
    rw [paths]
    decide
  have nothing : ∀ x ∈ (options none).built, ∀ e, disk.entry x ≠ .ok e := by
    intro x mem e found
    obtain ⟨p, located, here⟩ := Disk.entry_eq_ok.1 found
    obtain rfl := Except.ok.inj (located.symm.trans (flat.locate (free x mem).1))
    rw [(free x mem).2] at here
    cases here
  have named : lastPiece (options none).input = ['p'] ++ '.' :: ['s', 't'] := by decide
  refine CompileOptions.clear_of_extension (Disk.sound_single "p.st" "1 print") rfl named (by decide)
    (by decide) (by decide) (by decide) (by decide) (fun x mem => ?_) ?_
    fun device => nothing _ (by simp [CompileOptions.built]) _
  · rcases List.mem_cons.1 mem with rfl | built
    · exact flat.unlinked (by decide)
    · exact flat.unlinked (free x built).1
  · refine List.pairwise_cons.2 ⟨fun x mem id _ => nothing x mem _, ?_⟩
    exact List.pairwise_iff_forall_sublist.2 fun sub id found =>
      absurd found (nothing _ (sub.subset (List.mem_cons_self ..)) _)

end Stamp

/-! ## A build and its files -/

/-- **A build leaves its source, its text and its executable**, where its files are apart: its paths
are different, and on the disk that it leaves, or starts the executable on, the source still has the
text that was compiled, the text is the one that was emitted and the executable is as linked. -/
theorem Outcome.compiling_keeps {launch : Launch} {d : Disk} {o : CompileOptions}
    (sound : d.Sound) (assembler : launch.WritesOwn o.assembler)
    (linker : launch.WritesOwn o.linker) (builds : o.asmOnly = false) (clear : o.Clear d)
    (done : (compiling launch d o).status = 0) :
    (o.input :: o.built).Nodup
      ∧ ∃ text asm written assembled linked last, d.readText o.input = .ok text
        ∧ compile { pinCapacity := o.pinCapacity } text o.input = .ok asm
        ∧ Built launch d ⟨o.assembler, o.linker⟩ asm o.target written assembled linked last
        ∧ (compiling launch d o = if o.run then running launch last o.target
            else said last s!"Compiled {o.target}")
        ∧ last.readText o.input = .ok text
        ∧ last.read (withExtension o.target "asm") = .ok (utf8Bytes asm)
        ∧ linked.Keeps o.target last := by
  obtain ⟨text, asm, last, source, compiled, build, run⟩ := compiling_builds builds done
  obtain ⟨written, assembled, linked, built⟩ := build_eq_ok.1 build
  have unlinked := clear.unlinked (withExtension o.target "o") (by simp [CompileOptions.built])
  obtain ⟨others, kept, executable⟩ :=
    built.keeps assembler linker sound unlinked (clear.apart sound built.text)
  have input := others o.input fun x mem => (clear.source x mem).symm
  have different : (o.input :: o.built).Nodup :=
    List.nodup_cons.2 ⟨fun mem => (clear.source _ mem).ne source rfl, clear.nodup sound built.text⟩
  exact ⟨different, text, asm, written, assembled, linked, last, source, compiled, built, run,
    input.readText source, kept.read (Disk.read_write sound clear.device built.text), executable⟩

namespace Stamp

/-- A build leaves its source, its text and its executable. -/
theorem compiling_keeps_stamp :
    ∃ text asm last, disk.readText "p.st" = .ok text
      ∧ compile { pinCapacity := 4096 } text "p.st" = .ok asm
      ∧ Outcome.compiling stamping disk (options none) = .said last "Compiled p"
      ∧ last.readText "p.st" = .ok text ∧ last.read "p.asm" = .ok (utf8Bytes asm)
      ∧ last.read "p" = .ok (utf8Bytes "ld") := by
  have built : (options none).built = ["p.asm", "p.o", "p"] := by decide
  obtain ⟨asm, written, assembled, linked, last, compiled, stages, -, executable, run⟩ :=
    exists_compiling none (by rw [built]; decide)
  have done : (Outcome.compiling stamping disk (options none)).status = 0 := by
    rw [run]
    rfl
  obtain ⟨-, text, asm', _, _, linked', last', source, compiled', stages', -, kept, keptText,
      keeps⟩ := Outcome.compiling_keeps (Disk.sound_single "p.st" "1 print") (writesOwn _)
    (writesOwn _) rfl clear_disk done
  obtain rfl : text = "1 print" :=
    Except.ok.inj (source.symm.trans (Disk.readText_single (by decide)))
  obtain rfl : asm' = asm := Except.ok.inj (compiled'.symm.trans compiled)
  obtain ⟨rfl, rfl⟩ := stages.unique stages'
  exact ⟨_, _, last, source, compiled, run, kept, keptText, keeps.read executable⟩

/-- **An executable that ends as objects do is lost**: the run says that it is there. -/
theorem object_is_executable :
    (∀ tool, stamping.WritesOwn tool) ∧ (options (some "x.o")).built = ["x.asm", "x.o", "x.o"]
      ∧ ∃ asm written assembled linked last,
        Built stamping disk ⟨"nasm", "ld"⟩ asm "x.o" written assembled linked last
        ∧ linked.read "x.o" = .ok (utf8Bytes "ld") ∧ last.read "x.o" = .error .noEntry
        ∧ Outcome.compiling stamping disk (options (some "x.o")) = .said last "Compiled x.o" := by
  have paths : (options (some "x.o")).built = ["x.asm", "x.o", "x.o"] := by decide
  have object : withExtension "x.o" "o" = "x.o" := by decide
  obtain ⟨asm, written, assembled, linked, last, -, built, flat, executable, run⟩ :=
    exists_compiling (some "x.o") (by rw [paths]; decide)
  refine ⟨writesOwn, paths, asm, written, assembled, linked, last, built, executable, ?_, run⟩
  obtain ⟨id, file⟩ := flat.exists_file (by decide) executable
  have gone : last.entry "x.o" = .error .noEntry := built.lost object file
  rw [Disk.read, gone]

end Stamp

end PinnedStack
