/-!
# Signals

* `Signal.table` — the signals of Linux from the first on, with their short names and wordings.
* `Signal.name?`, `Signal.wording` — look one up.
* `Signal.list`, `Signal.ofText?` — all names, with those of the signals for free use.
* `Signal.isIgnored` — the signals that do nothing to a program that has not asked for them.
-/

namespace PinnedStack.Signal

/-- The signals from the first on: the short name, and what a shell says about a program that it
ended. -/
def table : List (String × String) :=
  [("HUP", "Hangup"), ("INT", "Interrupt"), ("QUIT", "Quit"), ("ILL", "Illegal instruction"),
    ("TRAP", "Trace/breakpoint trap"), ("ABRT", "Aborted"), ("BUS", "Bus error"),
    ("FPE", "Floating point exception"), ("KILL", "Killed"), ("USR1", "User defined signal 1"),
    ("SEGV", "Segmentation fault"), ("USR2", "User defined signal 2"), ("PIPE", "Broken pipe"),
    ("ALRM", "Alarm clock"), ("TERM", "Terminated"), ("STKFLT", "Stack fault"),
    ("CHLD", "Child exited"), ("CONT", "Continued"), ("STOP", "Stopped (signal)"),
    ("TSTP", "Stopped"), ("TTIN", "Stopped (tty input)"), ("TTOU", "Stopped (tty output)"),
    ("URG", "Urgent I/O condition"), ("XCPU", "CPU time limit exceeded"),
    ("XFSZ", "File size limit exceeded"), ("VTALRM", "Virtual timer expired"),
    ("PROF", "Profiling timer expired"), ("WINCH", "Window changed"), ("IO", "I/O possible"),
    ("PWR", "Power failure"), ("SYS", "Bad system call")]

def count : Nat := 64

def name? (number : Nat) : Option String :=
  if number = 0 then none else (table[number - 1]?).map (·.1)

/-- The names of all signals from number zero on, which stands for the end of a shell. -/
def list : List String :=
  let around := (List.range 15).map fun n => s!"RTMIN+{n + 1}"
  let back := (List.range 14).map fun n => s!"RTMAX-{14 - n}"
  "EXIT" :: table.map (·.1) ++ ["32", "33", "RTMIN"] ++ around ++ back ++ ["RTMAX"]

/-- The signal that a number or a name in capital or small letters means. -/
def ofText? (text : String) : Option Nat :=
  if text ≠ "" ∧ text.toList.all Char.isDigit then
    (text.toNat?).filter (· ≤ count)
  else list.idxOf? (text.map Char.toUpper)

/-- What a shell says about a program that a signal ended. -/
def wording (number : Nat) : String :=
  match table[number - 1]? with
  | some (_, text) => text
  | none => if number < 34 then s!"Unknown signal {number}" else s!"Real-time signal {number - 34}"

/-- Does a signal do nothing to a program that has not asked for it? -/
def isIgnored (number : Nat) : Bool := [0, 17, 18, 19, 20, 21, 22, 23, 28].contains number

end PinnedStack.Signal
