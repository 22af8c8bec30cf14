import PinnedStack.Host.Shell.Interpreter
import PinnedStack.Host.Tool.Environment
import PinnedStack.Host.Tool.Grep
import PinnedStack.Host.Tool.Listing
import PinnedStack.Host.Tool.Outline

/-!
# Installed programs

* `Programs.run` — runs an installed program by its name.
* `Programs.launch` — runs what a call names: an installed program, or a script with the program
  that its first line names.
* `Disk.host` — a bare system with the installed programs.

Only what small scripts start is installed: other programs are a matter of the `Launch` that a run
is given.
-/

namespace PinnedStack

namespace Programs

/-- The programs that run by themselves. -/
def plain : List (String × (Job → Job)) :=
  [("true", Tool.succeed), ("false", Tool.fail), ("echo", Tool.echo), ("printf", Tool.printf),
    ("test", Tool.testAs false), ("[", Tool.testAs true), ("pwd", Tool.workingDirectory),
    ("basename", Tool.baseName), ("dirname", Tool.directoryName), ("sleep", Tool.sleep),
    ("cp", Tool.copy), ("mv", Tool.move), ("rm", Tool.remove),
    ("rmdir", Tool.removeDirectories), ("ln", Tool.link), ("mkdir", Tool.makeDirectories),
    ("touch", Tool.touch), ("chmod", Tool.changeMode), ("cat", Tool.concatenate),
    ("tee", Tool.tee), ("head", Tool.head), ("tail", Tool.tail), ("wc", Tool.count),
    ("tr", Tool.exchangeChars), ("grep", Tool.grep),
    ("egrep", Tool.grepAs true false), ("fgrep", Tool.grepAs false true), ("ls", Tool.list)]
    ++ Tool.outlines.map fun (name, status, letters) =>
      (name, Tool.outlined status letters)

def wrappers : List (String × (Launch → Job → Reply)) := [("env", Tool.environment)]

def shells : List (String × Shell.Dialect) :=
  [("sh", .standard), ("dash", .standard), ("bash", .extended)]

/-- The names of the installed programs. -/
def names : List String :=
  plain.map (·.1) ++ wrappers.map (·.1) ++ shells.map (·.1)

/-- Runs an installed program by its name. -/
def run (launch : Launch) (name : String) (call : Invocation) : Reply :=
  match shells.lookup name with
  | some dialect => Shell.Interpreter.run dialect launch call
  | none =>
      match wrappers.lookup name with
      | some wrapper => wrapper launch (Job.start call)
      | none =>
          match plain.lookup name with
          | some tool => (tool (Job.start call)).finish
          | none => (Job.start call).finish

/-! ## Scripts -/

/-- How many bytes of a script are looked at for its interpreter. -/
def headSize : Nat := 256

/-- The interpreter that the first line of a script names, and the one argument that may follow
it. -/
def interpreter? (bytes : List UInt8) : Option (String × Option String) :=
  match bytes.take headSize with
  | 35 :: 33 :: head =>
      let line := head.takeWhile (· ≠ 10)
      let isBlank (b : UInt8) : Bool := b = 32 || b = 9
      let start := line.dropWhile isBlank
      let name := start.takeWhile fun b => !isBlank b && b ≠ 0
      let rest := ((start.drop name.length).dropWhile isBlank).reverse
      let argument := (rest.dropWhile isBlank).reverse
      let isCut := line.length = head.length && bytes.length > headSize
      if name.isEmpty || (isCut && start.length = name.length) then none
      else
        some (ofUtf8Lossy name, if argument.isEmpty then none else some (ofUtf8Lossy argument))
  | _ => none

/-- The path of a program: a name without a slash is looked up. -/
def pathOf (call : Invocation) : Except OsError String :=
  if call.program.toList.contains '/' then .ok call.program
  else if call.program = "" then .error .noEntry
  else
    let directories := ((call.env.lookup "PATH").getD "/bin:/usr/bin").splitOn ":"
    let places := directories.map fun directory =>
      if directory = "" then call.program else directory ++ "/" ++ call.program
    match places.find? call.disk.isRunnable with
    | some path => .ok path
    | none =>
        if places.any fun path => (call.disk.entry path).toBool then .error .accessDenied
        else .error .noEntry

/-- Runs what is at a path. Scripts are run by their interpreters, which may be scripts again;
`links` bounds how often. -/
def start (launch : Launch) (links : Nat) (path : String) (call : Invocation) :
    Except OsError Reply :=
  match call.disk.entry path with
  | .error e => .error e
  | .ok (.program name) => .ok (run launch name call)
  | .ok (.file id) =>
      let file := call.disk.file id
      if file.mode &&& 0o111 = 0 then .error .accessDenied
      else
        match interpreter? file.bytes with
        | none => .error .notRunnable
        | some (interpreter, argument) =>
            match links with
            | 0 => .error .manyLinks
            | n + 1 =>
                start launch n interpreter { call with
                  name := interpreter
                  args := argument.toList ++ path :: call.args }
  | .ok _ => .error .accessDenied

/-- How many interpreters may stand behind each other. -/
def maxInterpreters : Nat := 5

/-- Runs programs; they run others at most `depth` deep. -/
def launchWithin (depth : Nat) : Launch :=
  match depth with
  | 0 => fun _ => .error .notRunnable
  | below + 1 => fun call =>
      match pathOf call with
      | .error e => .error e
      | .ok path => start (launchWithin below) maxInterpreters path call

def maxDepth : Nat := 200

def launch : Launch := launchWithin maxDepth

end Programs

namespace Disk

def hostDirectories : List String :=
  ["/boot", "/dev/pts", "/dev/shm", "/etc/default", "/etc/ssl", "/home", "/media", "/mnt", "/opt",
    "/root", "/run/lock", "/srv", "/tmp", "/usr/bin", "/usr/games", "/usr/include", "/usr/lib",
    "/usr/lib64", "/usr/libexec", "/usr/local/bin", "/usr/local/etc", "/usr/local/games",
    "/usr/local/include", "/usr/local/lib", "/usr/local/sbin", "/usr/local/share",
    "/usr/local/src", "/usr/sbin", "/usr/share/doc", "/usr/share/man", "/usr/src",
    "/var/backups", "/var/cache", "/var/lib", "/var/local", "/var/log", "/var/mail", "/var/opt",
    "/var/spool", "/var/tmp"]

/-- The symbolic links of a bare system. -/
def hostLinks : List (String × String) :=
  [("/bin", "usr/bin"), ("/sbin", "usr/sbin"), ("/lib", "usr/lib"), ("/lib64", "usr/lib64"),
    ("/var/run", "/run"), ("/var/lock", "/run/lock"), ("/usr/local/man", "share/man")]

def hostDevices : List (String × Device) :=
  [("/dev/null", .null), ("/dev/zero", .null), ("/dev/full", .full), ("/dev/stdin", .descriptor 0),
    ("/dev/stdout", .descriptor 1), ("/dev/stderr", .descriptor 2), ("/dev/fd/0", .descriptor 0),
    ("/dev/fd/1", .descriptor 1), ("/dev/fd/2", .descriptor 2), ("/dev/random", .null),
    ("/dev/urandom", .null), ("/dev/tty", .terminal)]

/-- The files of a bare system. Most hold nothing that matters here. -/
def hostFiles : List (String × String) :=
  [("/etc/passwd", "root:x:0:0:root:/root:/bin/bash\n"), ("/etc/group", "root:x:0:\n"),
    ("/etc/hosts", "127.0.0.1\tlocalhost\n"), ("/etc/hostname", "host\n"),
    ("/etc/resolv.conf", ""), ("/etc/shadow", "root:*:0:0:99999:7:::\n")]

/-- A bare system with the installed programs. The working directory is empty. -/
def host : Disk :=
  let bare : Disk := ⟨[([], .directory none)], #[], ["work"]⟩
  let d := hostDirectories.foldl (fun d path => d.install path (.directory none)) bare
  let d := Programs.names.foldl (fun d name => d.install ("/usr/bin/" ++ name) (.program name)) d
  let d := hostLinks.foldl (fun d (path, target) => d.install path (.link target)) d
  let d := hostDevices.foldl (fun d (path, device) => d.install path (.device device)) d
  let d := d.install "/dev/fd" (.directory (some .noEntry))
  let d := d.install "/proc" (.directory (some .noEntry))
  let d := d.install "/proc/self" (.directory (some .noEntry))
  let d := d.install "/sys" (.directory (some .accessDenied))
  let d := hostFiles.foldl (fun d (path, text) => d.installFile path (utf8Bytes text)) d
  d.install "/work" (.directory none)

end Disk

end PinnedStack
