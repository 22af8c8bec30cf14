import PinnedStack.Host.Tool.Words

/-!
# Lists of files

* `Listed` — something that is listed, with the marks and lines that show it.
* `Tool.list` — the program `ls`.
-/

namespace PinnedStack.Tool

open Options (Spec Parsed)

/-- Something that is listed: its name, what it is, and what lies there. -/
structure Listed where
  name : String
  entry : Entry
  mode : Nat
  size : Nat

def Listed.of (d : Disk) (name path : String) (follow : Bool) : Except OsError Listed :=
  match if follow then d.entry path else d.entryLink path with
  | .error e => .error e
  | .ok entry =>
      let mode := match entry with
        | .link _ => 0o777
        | _ => (d.mode path).toOption.getD 0o755
      let size := match entry with
        | .file id => (d.file id).bytes.length
        | .link target => target.utf8ByteSize
        | .directory _ => 4096
        | _ => 0
      .ok ⟨name, entry, mode, size⟩

def Listed.isDirectory (l : Listed) : Bool :=
  match l.entry with
  | .directory _ => true
  | _ => false

/-- The mark after a name: what lies there. -/
def Listed.mark (p : Parsed) (l : Listed) : String :=
  match l.entry with
  | .directory _ => if p.has "F" || p.has "p" then "/" else ""
  | .link _ => if p.has "F" then "@" else ""
  | .program _ => if p.has "F" then "*" else ""
  | .file _ => if p.has "F" && l.mode &&& 0o111 ≠ 0 then "*" else ""
  | .device _ => ""

def Listed.long (p : Parsed) (width : Nat) (l : Listed) : String :=
  let letter := match l.entry with
    | .directory _ => "d"
    | .link _ => "l"
    | .device _ => "c"
    | _ => "-"
  let target := match l.entry with
    | .link target => s!" -> {target}"
    | _ => ""
  let size := rightAligned width l.size
  s!"{letter}{Permission.text l.mode} 1 root root {size} Jan  1 00:00 {l.name}{l.mark p}{target}"

def listLines (p : Parsed) (all : List Listed) : String :=
  let all := if p.has "r" then all.reverse else all
  let width := (all.map fun l => (toString l.size).length).foldl max 1
  String.join (all.map fun l =>
    (if p.has "l" then l.long p width else l.name ++ l.mark p) ++ "\n")

/-- The names in a directory that are listed. -/
def listedNames (d : Disk) (p : Parsed) (path : String) : List String :=
  let names := match d.locate path with
    | .ok place => d.children place
    | .error _ => []
  if p.has "a" then "." :: ".." :: names
  else if p.has "A" then names
  else names.filter fun name => name.toList.head? ≠ some '.'

/-- Lists a directory, and those in it if that is asked for; `depth` bounds how deep they lie. -/
def listDirectory (depth : Nat) (p : Parsed) (d : Disk) (titled : Bool) (path : String) :
    List String :=
  let all := (listedNames d p path).filterMap fun name =>
    (Listed.of d name (inside path name) false).toOption
  let title := if titled then s!"{Quote.ifNeeded path}:\n" else ""
  let total := if p.has "l" then s!"total {4 * all.length}\n" else ""
  let below := match depth with
    | 0 => []
    | n + 1 =>
        if p.has "R" then
          (all.filter fun l => l.isDirectory && l.name ≠ "." && l.name ≠ "..").flatMap fun l =>
            listDirectory n p d true (inside path l.name)
        else []
  (title ++ total ++ listLines p all) :: below

/-- The program `ls`. -/
def list (j : Job) : Job :=
  let spec : Spec := .of "abcdfghiklmnopqrstuvw:xABCDFGHI:LNQRST:UXZ1"
    [("all", "a"), ("almost-all", "A"), ("directory", "d"), ("classify", "F"),
      ("recursive", "R"), ("reverse", "r"), ("color=", "color"), ("human-readable", "h"),
      ("dereference", "L"), ("size", "s"), ("inode", "i"), ("sort=", "sort")]
  j.withOptions spec 2 fun p =>
    let paths := if p.operands.isEmpty then ["."] else p.operands
    let follow := !(p.has "l" || p.has "d" || p.has "F")
    let step (state : Job × List Listed) (path : String) : Job × List Listed :=
      match (Listed.of state.1.disk path path follow, Listed.of state.1.disk path path false) with
      | (.ok l, _) => (state.1, state.2 ++ [l])
      | (_, .ok l) => (state.1, state.2 ++ [l])
      | (.error e, _) =>
          (state.1.complain s!"cannot access {Quote.always path}: {e.reason}" 2, state.2)
    let (j, found) := paths.foldl step (j, [])
    let found := found.mergeSort fun a b => !(utf8Bytes b.name < utf8Bytes a.name)
    let isOpened (l : Listed) : Bool := l.isDirectory && !p.has "d"
    let files := found.filter fun l => !isOpened l
    let directories := found.filter isOpened
    let directories := if p.has "r" then directories.reverse else directories
    let titled := paths.length > 1 ∨ p.has "R"
    let parts := (if files.isEmpty then [] else [listLines p files])
      ++ directories.flatMap fun l => listDirectory maxDepth p j.disk titled l.name
    j.say (String.intercalate "\n" parts)

end PinnedStack.Tool
