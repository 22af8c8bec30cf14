import PinnedStack.Host.Process
import PinnedStack.Host.Tool.Options
import PinnedStack.Host.Tool.Permission
import PinnedStack.Host.Tool.Quote
import PinnedStack.Host.Tool.Test

/-!
# Programs that handle files

* `Job.withOptions` — reads the options of a program before it works.
* `Tool.copy`, `Tool.move`, `Tool.remove`, `Tool.link`, `Tool.makeDirectories`,
  `Tool.removeDirectories`, `Tool.touch`, `Tool.changeMode` — the programs `cp`, `mv`, `rm`, `ln`,
  `mkdir`, `rmdir`, `touch` and `chmod`.
-/

namespace PinnedStack

namespace Job

/-- Fails with a hint at the help text. -/
def misused (j : Job) (text : String) (status : Nat) : Job :=
  let j := j.complain text status
  j.emit .err (utf8Bytes s!"Try '{j.call.name} --help' for more information.\n")

/-- Reads options and goes on with them. -/
def withOptions (j : Job) (spec : Options.Spec) (status : Nat) (work : Options.Parsed → Job) :
    Job :=
  match Options.parse spec j.call.args with
  | .error text => j.misused text status
  | .ok p => if p.has "help" ∨ p.has "version" then j else work p

/-- Makes a request of the disk, or complains about what could not be done. -/
def request (j : Job) (result : Except OsError Disk) (failure : String) : Job :=
  match result with
  | .ok disk => { j with disk := disk }
  | .error e => j.complain s!"{failure}: {e.reason}" 1

end Job

namespace Tool

open Options (Spec Parsed)

/-- A path without the slashes at its end. -/
def withoutSlashes (path : String) : String :=
  let back := path.toList.reverse.dropWhile (· = '/')
  if back.isEmpty ∧ path ≠ "" then "/" else String.ofList back.reverse

def lastName (path : String) : String :=
  let bare := withoutSlashes path
  if bare = "/" then "/" else ((bare.splitOn "/").getLast?).getD ""

/-- The path of a name in a directory. -/
def inside (directory name : String) : String :=
  if directory.endsWith "/" then directory ++ name else s!"{directory}/{name}"

/-- Is there something at a path, be it a link to nothing? -/
def isTaken (d : Disk) (path : String) : Bool :=
  match d.entryLink path with
  | .ok _ => true
  | .error _ => false

/-! ## Copies -/

/-- How files are copied: `spare` keeps what is there, `force` takes away what cannot be written,
`links` copies links as links, and `names` makes names for the files in place of copies. -/
structure CopyStyle where
  deep : Bool
  spare : Bool
  force : Bool
  links : Bool
  keepMode : Bool
  verbose : Bool
  names : Bool
  symbolic : Bool

/-- The mode of a copy that is made anew. -/
def copyMode (j : Job) (style : CopyStyle) (mode : Nat) : Nat :=
  if style.keepMode then mode else mode - (mode &&& j.call.mask)

def tellCopy (j : Job) (style : CopyStyle) (source target : String) : Job :=
  if style.verbose then j.sayLine s!"{Quote.always source} -> {Quote.always target}" else j

def copyBytes (j : Job) (style : CopyStyle) (bytes : List UInt8) (mode : Nat)
    (source target : String) : Job :=
  let fresh := !isTaken j.disk target
  let cannot := s!"cannot create regular file {Quote.always target}"
  match j.disk.locate target, isTaken j.disk target with
  | .ok place, true =>
      if (j.disk.find? place).isNone then
        j.complain s!"not writing through dangling symlink {Quote.always target}" 1
      else
        match j.openNew target with
        | .error e => j.complain s!"{cannot}: {e.reason}" 1
        | .ok (opened, j) =>
            match (tellCopy j style source target).put opened bytes with
            | .error e => j.complain s!"error writing {Quote.always target}: {e.reason}" 1
            | .ok j => if style.keepMode then j.request (j.disk.setMode target mode) cannot else j
  | _, _ =>
      match j.openNew target with
      | .error .isDirectory => j.complain s!"{cannot}: {OsError.notDirectory.reason}" 1
      | .error e => j.complain s!"{cannot}: {e.reason}" 1
      | .ok (opened, j) =>
          match (tellCopy j style source target).put opened bytes with
          | .error e => j.complain s!"error writing {Quote.always target}: {e.reason}" 1
          | .ok j =>
              if fresh then j.request (j.disk.setMode target (copyMode j style mode)) cannot else j

/-- Copies one thing that is not a directory. -/
def copyOne (j : Job) (style : CopyStyle) (source target : String) : Job :=
  let found := if style.links then j.disk.entryLink source else j.disk.entry source
  let put (entry : Entry) : Job :=
    let cannot := s!"cannot create regular file {Quote.always target}"
    match j.disk.locate target with
    | .error e => j.complain s!"{cannot}: {e.reason}" 1
    | .ok place => { j with disk := j.disk.put place entry }
  match found with
  | .error e => j.complain s!"cannot stat {Quote.always source}: {e.reason}" 1
  | .ok (.file id) =>
      copyBytes j style (j.disk.file id).bytes (j.disk.file id).mode source target
  | .ok (.link old) =>
      let disk := (j.disk.unlink target).toOption.getD j.disk
      { j with disk := disk }.request (disk.makeLink old target)
        s!"cannot create symbolic link {Quote.always target}"
  | .ok (.device (.descriptor 0)) =>
      let (bytes, j) := j.drain
      copyBytes j style bytes 0o666 source target
  | .ok (.device _) => copyBytes j style [] 0o666 source target
  | .ok entry => put entry

/-- Copies a file or a directory to a path; `depth` bounds how deep directories lie. -/
def copyTo (depth : Nat) (j : Job) (style : CopyStyle) (source target : String) : Job :=
  let same := s!"{Quote.always source} and {Quote.always target} are the same file"
  let found := if style.links ∨ style.deep then j.disk.entryLink source else j.disk.entry source
  match found with
  | .error e => j.complain s!"cannot stat {Quote.always source}: {e.reason}" 1
  | .ok (.directory _) =>
      if !style.deep then
        j.complain s!"-r not specified; omitting directory {Quote.always source}" 1
      else if isTaken j.disk target ∧ !j.disk.isDirectory target then
        let blocked := s!"cannot overwrite non-directory {Quote.always target}"
        j.complain s!"{blocked} with directory {Quote.always source}" 1
      else
        match depth with
        | 0 => j
        | below + 1 =>
            let within := match j.disk.locate source, j.disk.locate target with
              | .ok a, .ok b => a.isPrefixOf b
              | _, _ => false
            if within then
              let blocked := s!"cannot copy a directory, {Quote.always source}, into itself"
              j.complain s!"{blocked}, {Quote.always target}" 1
            else
              let names := match j.disk.locate source with
                | .ok place => j.disk.children place
                | .error _ => []
              let j := if isTaken j.disk target then j
                else (tellCopy j style source target).request (j.disk.makeDirectory target)
                  s!"cannot create directory {Quote.always target}"
              names.foldl (fun j name => copyTo below j style (inside source name)
                (inside target name)) j
  | .ok _ =>
      if style.spare ∧ isTaken j.disk target then j
      else if style.symbolic then
        (tellCopy j style source target).request (j.disk.makeLink source target)
          s!"cannot create symbolic link {Quote.always target} to {Quote.always source}"
      else if style.names then
        (tellCopy j style source target).request (j.disk.addName source target)
          s!"cannot create hard link {Quote.always target} to {Quote.always source}"
      else if Test.sameFile j.disk source target then j.complain same 1
      else if j.disk.isDirectory target then
        j.complain s!"cannot overwrite directory {Quote.always target} with non-directory" 1
      else copyOne j { style with links := style.links ∨ style.deep } source target

def maxDepth : Nat := 256

/-- The sources of a program, and the directory or the path that they go to. -/
inductive Destination where
  | directory (path : String) (sources : List String)
  | path (source target : String)
  | wrong (job : Job)

/-- Reads where the operands of `cp`, `mv` and `ln` go to. -/
def destination (j : Job) (p : Parsed) : Destination :=
  match p.value? "t", p.operands with
  | some directory, sources =>
      if sources.isEmpty then .wrong (j.misused "missing file operand" 1)
      else
        match j.disk.entry directory with
        | .error e =>
            .wrong (j.complain s!"target directory {Quote.always directory}: {e.reason}" 1)
        | .ok (.directory _) => .directory directory sources
        | .ok _ => .wrong (j.complain
            s!"target directory {Quote.always directory}: {OsError.notDirectory.reason}" 1)
  | none, [] => .wrong (j.misused "missing file operand" 1)
  | none, [source] =>
      .wrong (j.misused s!"missing destination file operand after {Quote.always source}" 1)
  | none, [source, target] =>
      if !p.has "T" ∧ j.disk.isDirectory target then .directory target [source]
      else .path source target
  | none, operands =>
      let target := operands.getLast?.getD ""
      if p.has "T" then
        let extra := (operands[2]?).getD ""
        .wrong (j.misused s!"extra operand {Quote.always extra}" 1)
      else
        match j.disk.entry target with
        | .ok (.directory _) => .directory target operands.dropLast
        | .ok _ => .wrong (j.complain
            s!"target {Quote.always target}: {OsError.notDirectory.reason}" 1)
        | .error e => .wrong (j.complain s!"target {Quote.always target}: {e.reason}" 1)

/-- The options of `cp`. -/
def copySpec : Spec := .of "abdfHilLnprst:uvxPRS:TZ"
  [("archive", "a"), ("force", "f"), ("interactive", "i"), ("link", "l"), ("dereference", "L"),
    ("no-clobber", "n"), ("no-dereference", "P"), ("recursive", "R"), ("symbolic-link", "s"),
    ("target-directory", "t"), ("no-target-directory", "T"), ("update", "u"), ("verbose", "v"),
    ("preserve", "p"), ("suffix", "S"), ("backup", "b"), ("one-file-system", "x")]

/-- The program `cp`. -/
def copy (j : Job) : Job :=
  j.withOptions copySpec 1 fun p =>
    let deep := p.has "r" || p.has "R" || p.has "a"
    let style : CopyStyle := {
      deep := deep
      spare := p.last? ["n", "i", "f"] == some "n"
      force := p.has "f"
      links := p.has "P" || p.has "d" || p.has "a"
      keepMode := p.has "p" || p.has "a"
      verbose := p.has "v"
      names := p.has "l"
      symbolic := p.has "s" }
    match destination j p with
    | .wrong j => j
    | .path source target => copyTo maxDepth j style source target
    | .directory target sources =>
        sources.foldl (fun j source => copyTo maxDepth j style source
          (inside target (lastName source))) j

/-- Moves a file or a directory to a path. -/
def moveTo (p : Parsed) (j : Job) (source target : String) : Job :=
  let asks := s!"cannot move {Quote.always source} to {Quote.always target}"
  match j.disk.entryLink source with
  | .error e => j.complain s!"cannot stat {Quote.always source}: {e.reason}" 1
  | .ok entry =>
      let isDirectory := match entry with
        | .directory _ => true
        | _ => false
      if p.last? ["n", "i", "f"] = some "n" ∧ isTaken j.disk target then j
      else if isTaken j.disk target ∧
          (j.disk.locateLink source).toOption = (j.disk.locateLink target).toOption then
        j.complain s!"{Quote.always source} and {Quote.always target} are the same file" 1
      else if !isDirectory ∧ j.disk.isDirectory target then
        j.complain s!"cannot overwrite directory {Quote.always target} with non-directory" 1
      else if isDirectory ∧ isTaken j.disk target ∧ !j.disk.isDirectory target then
        let blocked := s!"cannot overwrite non-directory {Quote.always target}"
        j.complain s!"{blocked} with directory {Quote.always source}" 1
      else
        let bare := if isDirectory then withoutSlashes target else target
        match j.disk.rename source bare with
        | .ok disk =>
            let j := { j with disk := disk }
            if p.has "v" then
              j.sayLine s!"renamed {Quote.always source} -> {Quote.always target}"
            else j
        | .error .invalid =>
            let blocked := s!"cannot move {Quote.always source} to a subdirectory of itself"
            j.complain s!"{blocked}, {Quote.always target}" 1
        | .error e =>
            let reason := if e = .noEntry ∧ (Disk.askedIn? target).isSome then .notDirectory else e
            j.complain s!"{asks}: {reason.reason}" 1

/-- The options of `mv`. -/
def moveSpec : Spec := .of "bfint:uvS:TZ"
  [("force", "f"), ("interactive", "i"), ("no-clobber", "n"), ("target-directory", "t"),
    ("no-target-directory", "T"), ("update", "u"), ("verbose", "v"), ("suffix", "S"),
    ("backup", "b")]

/-- The program `mv`. -/
def move (j : Job) : Job :=
  j.withOptions moveSpec 1 fun p =>
    match destination j p with
    | .wrong j => j
    | .path source target => moveTo p j source target
    | .directory target sources =>
        sources.foldl (fun j source => moveTo p j source (inside target (lastName source))) j

/-! ## Removal -/

/-- Removes a file, or a directory with all in it; `depth` bounds how deep directories lie. -/
def removeAt (depth : Nat) (p : Parsed) (j : Job) (path : String) : Job :=
  let cannot := s!"cannot remove {Quote.always path}"
  let deep := p.has "r" || p.has "R"
  let tell (j : Job) (what : String) : Job :=
    if p.has "v" then j.sayLine s!"removed {what}{Quote.always path}" else j
  match j.disk.entryLink path with
  | .error e =>
      if p.has "f" ∧ (e = .noEntry ∨ e = .notDirectory) then j
      else j.complain s!"{cannot}: {e.reason}" 1
  | .ok (.directory _) =>
      if (lastName path = "." ∨ lastName path = "..") ∧ deep then
        j.complain s!"refusing to remove '.' or '..' directory: skipping {Quote.always path}" 1
      else if deep then
        match depth with
        | 0 => j
        | below + 1 =>
            let names := match j.disk.locate path with
              | .ok place => j.disk.children place
              | .error _ => []
            let j := names.foldl (fun j name => removeAt below p j (inside path name)) j
            match j.disk.removeDirectory path with
            | .ok disk => tell { j with disk := disk } "directory "
            | .error e => j.complain s!"{cannot}: {e.reason}" 1
      else if p.has "d" then
        match j.disk.removeDirectory path with
        | .ok disk => tell { j with disk := disk } "directory "
        | .error e => j.complain s!"{cannot}: {e.reason}" 1
      else j.complain s!"{cannot}: {OsError.isDirectory.reason}" 1
  | .ok _ =>
      match j.disk.unlink path with
      | .ok disk => tell { j with disk := disk } ""
      | .error e => j.complain s!"{cannot}: {e.reason}" 1

/-- The program `rm`. -/
def remove (j : Job) : Job :=
  let spec : Spec := .of "dfirvIR"
    [("force", "f"), ("recursive", "r"), ("dir", "d"), ("verbose", "v"), ("interactive", "i"),
      ("one-file-system", "one"), ("no-preserve-root", "npr"), ("preserve-root", "pr")]
  j.withOptions spec 1 fun p =>
    if p.operands.isEmpty then if p.has "f" then j else j.misused "missing operand" 1
    else p.operands.foldl (removeAt maxDepth p) j

/-- The program `rmdir`. -/
def removeDirectories (j : Job) : Job :=
  let spec : Spec := .of "pv" [("parents", "p"), ("verbose", "v"),
    ("ignore-fail-on-non-empty", "ignore")]
  j.withOptions spec 1 fun p =>
    let one (kind : String) (j : Job) (path : String) : Job × Bool :=
      let j := if p.has "v" then
        j.sayLine s!"{j.call.name}: removing directory, {Quote.always path}" else j
      match j.disk.removeDirectory path with
      | .ok disk => ({ j with disk := disk }, false)
      | .error e =>
          if p.has "ignore" ∧ e = .notEmpty then (j, true)
          else (j.complain s!"failed to remove {kind}{Quote.always path}: {e.reason}" 1, true)
    let above (path : String) : List String :=
      let pieces := (withoutSlashes path).splitOn "/"
      (List.range pieces.length).map fun n =>
        String.intercalate "/" (pieces.take (pieces.length - n))
    let all (j : Job) (path : String) : Job :=
      let ways := if p.has "p" then ((above path).drop 1).filter (· ≠ "") else []
      ways.foldl (fun (state : Job × Bool) way =>
        if state.2 then state else one "directory " state.1 way) (one "" j path) |>.1
    if p.operands.isEmpty then j.misused "missing operand" 1 else p.operands.foldl all j

/-! ## New files -/

/-- The program `ln`. -/
def link (j : Job) : Job :=
  let spec : Spec := .of "bdfinrst:vFLPS:T"
    [("symbolic", "s"), ("force", "f"), ("no-dereference", "n"), ("relative", "r"),
      ("target-directory", "t"), ("no-target-directory", "T"), ("verbose", "v"),
      ("interactive", "i"), ("physical", "P"), ("logical", "L"), ("backup", "b"), ("suffix", "S")]
  j.withOptions spec 1 fun p =>
    let symbolic := p.has "s"
    let one (j : Job) (source target : String) : Job :=
      let what := if symbolic then "symbolic link" else "hard link"
      if !symbolic ∧ j.disk.isDirectory source then
        j.complain s!"{Quote.ifNeeded source}: hard link not allowed for directory" 1
      else if !symbolic ∧ !isTaken j.disk source then
        match j.disk.entryLink source with
        | .error e => j.complain s!"failed to access {Quote.always source}: {e.reason}" 1
        | .ok _ => j
      else if p.has "f" ∧ isTaken j.disk target ∧ Test.sameFile j.disk source target
          ∧ !symbolic then
        j.complain s!"{Quote.always source} and {Quote.always target} are the same file" 1
      else
        let disk := if p.has "f" then (j.disk.unlink target).toOption.getD j.disk else j.disk
        let made := if symbolic then disk.makeLink source target else disk.addName source target
        match made with
        | .ok disk =>
            let j := { j with disk := disk }
            let arrow := if symbolic then "->" else "=>"
            if p.has "v" then
              j.sayLine s!"{Quote.always target} {arrow} {Quote.always source}"
            else j
        | .error e =>
            let origin := if e = .alreadyThere ∨ symbolic then ""
              else s!" => {Quote.always source}"
            j.complain s!"failed to create {what} {Quote.always target}{origin}: {e.reason}" 1
    match p.value? "t", p.operands with
    | none, [source] => one j source (inside "." (lastName source))
    | _, _ =>
        let followed := match p.operands with
          | [_, target] =>
              p.has "n" && (j.disk.locateLink target).toOption != (j.disk.locate target).toOption
          | _ => false
        let p := if followed then { p with options := p.options ++ [("T", "")] } else p
        match destination j p with
        | .wrong j => j
        | .path source target => one j source target
        | .directory target sources =>
            sources.foldl (fun j source => one j source (inside target (lastName source))) j

/-- Makes the directories on the way of a path that are not there yet, and the one at its end;
`tell` says what was made. -/
def makeWay (tell : Job → String → Job) (j : Job) (path : String) : Job :=
  let pieces := (withoutSlashes path).splitOn "/"
  let ways := (List.range pieces.length).map fun n => String.intercalate "/" (pieces.take (n + 1))
  let last := String.intercalate "/" pieces
  (ways.filter (· ≠ "")).foldl
    (fun (state : Job × Bool) way =>
      let (j, failed) := state
      if failed ∨ j.disk.isDirectory way then state
      else
        match j.disk.makeDirectory way with
        | .ok disk => (tell { j with disk := disk } way, false)
        | .error e =>
            let e := if e = .alreadyThere ∧ way ≠ last then .notDirectory else e
            (j.complain s!"cannot create directory {Quote.always way}: {e.reason}" 1, true))
    (j, false) |>.1

/-- The program `mkdir`. -/
def makeDirectories (j : Job) : Job :=
  let spec : Spec := .of "pm:vZ" [("parents", "p"), ("mode", "m"), ("verbose", "v")]
  j.withOptions spec 1 fun p =>
    let tell (j : Job) (path : String) : Job :=
      if p.has "v" then j.sayLine s!"{j.call.name}: created directory {Quote.always path}" else j
    let make (j : Job) (path : String) : Job :=
      match j.disk.makeDirectory (withoutSlashes path) with
      | .ok disk => tell { j with disk := disk } path
      | .error e => j.complain s!"cannot create directory {Quote.always path}: {e.reason}" 1
    if p.operands.isEmpty then j.misused "missing operand" 1
    else p.operands.foldl (if p.has "p" then makeWay tell else make) j

/-- The program `touch`. -/
def touch (j : Job) : Job :=
  let spec : Spec := .of "acd:fhmr:t:"
    [("no-create", "c"), ("date", "d"), ("reference", "r"), ("time=", "time"),
      ("no-dereference", "h")]
  j.withOptions spec 1 fun p =>
    let one (j : Job) (path : String) : Job :=
      match j.disk.entry path with
      | .ok _ => j
      | .error e =>
          if p.has "c" ∧ e = .noEntry then j
          else
            match j.openNew path with
            | .ok (_, j) => j
            | .error e =>
                let e := if e = .isDirectory then .noEntry else e
                j.complain s!"cannot touch {Quote.always path}: {e.reason}" 1
    if p.operands.isEmpty then j.misused "missing file operand" 1 else p.operands.foldl one j

/-! ## Permissions -/

/-- What `chmod` says of a change. -/
def modeStep (old new : Nat) : String :=
  let shown (mode : Nat) : String :=
    let digits := String.ofList (NumberText.digits 8 mode)
    let fill := String.ofList (List.replicate (4 - digits.length) '0')
    s!"{fill}{digits} ({Permission.text mode})"
  if old = new then s!"retained as {shown new}" else s!"changed from {shown old} to {shown new}"

/-- Is an argument of `chmod` a mode that starts with a dash? -/
def isDashMode (arg : String) : Bool :=
  match arg.toList with
  | '-' :: c :: _ => ['r', 'w', 'x', 'X', 's', 't', 'u', 'g', 'o', 'a'].contains c || c.isDigit
  | _ => false

/-- The program `chmod`. -/
def changeMode (j : Job) : Job :=
  let spec : Spec := .of "Rcfv"
    [("recursive", "R"), ("changes", "c"), ("silent", "f"), ("quiet", "f"), ("verbose", "v"),
      ("reference=", "reference")]
  let dashed := j.call.args.find? isDashMode
  let args := j.call.args.filter fun arg => some arg ≠ dashed
  { j with call := { j.call with args := args } }.withOptions spec 1 fun p =>
    match dashed.toList ++ p.operands with
    | [] => j.misused "missing operand" 1
    | [mode] => j.misused s!"missing operand after {Quote.always mode}" 1
    | mode :: paths =>
        match Permission.change? j.call.mask mode with
        | none => j.misused s!"invalid mode: {Quote.always mode}" 1
        | some change =>
            paths.foldl (fun j path =>
              match j.disk.mode path with
              | .error e =>
                  if p.has "f" then j.withStatus 1
                  else j.complain s!"cannot access {Quote.always path}: {e.reason}" 1
              | .ok old =>
                  let new := change (j.disk.isDirectory path) old
                  let j := j.request (j.disk.setMode path new)
                    s!"changing permissions of {Quote.always path}"
                  if p.has "v" ∨ (p.has "c" ∧ new ≠ old) then
                    j.sayLine s!"mode of {Quote.always path} {modeStep old new}"
                  else j) j

end Tool

end PinnedStack
