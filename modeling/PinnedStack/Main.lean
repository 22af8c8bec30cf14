import PinnedStack.Command.Run
import PinnedStack.Host.Programs

/-!
# The command

* `main` — loads the files that a command line is about, carries it out and saves what changed.
-/

namespace PinnedStack

/-- Copies a file to a disk. What is there and cannot be read as a file is taken for a directory. -/
def Disk.load (d : Disk) (path : String) : BaseIO Disk := do
  match ← (IO.FS.readBinFile path).toBaseIO with
  | .ok bytes => return d.installFile path bytes.toList
  | .error _ =>
      match ← (IO.FS.realPath path).toBaseIO with
      | .ok _ => return d.install path (.directory none)
      | .error _ => return d

/-- A bare system at the given working directory, with copies of files. -/
def Disk.ofFiles (here : String) (paths : List String) : BaseIO Disk := do
  let d : Disk := { Disk.host with here := [] }
  let d := { d with here := d.placeOf here }
  paths.foldlM Disk.load (d.install "." (.directory none))

/-- Writes the files that were made or changed and removes those that are gone. -/
def Disk.save (before after : Disk) : IO Unit := do
  for (names, file) in before.changes after do
    let path := Disk.absolute names
    IO.FS.writeBinFile path ⟨file.bytes.toArray⟩
    if file.mode &&& 0o111 ≠ 0 then
      IO.setAccessRights path ⟨⟨true, true, true⟩, ⟨true, false, true⟩, ⟨true, false, true⟩⟩
  for names in before.removals after do
    IO.FS.removeFile (Disk.absolute names)

end PinnedStack

open PinnedStack in
/-- Carries out a command line. -/
def main (args : List String) : IO UInt32 := do
  let here := toString (← IO.currentDir)
  let before ← Disk.ofFiles here (((Request.ofArgs? args).map Request.paths).getD [])
  let o := Outcome.ofArgs Programs.launch before args
  before.save o.disk
  IO.print o.out
  IO.eprint o.err
  return UInt32.ofNat o.status
