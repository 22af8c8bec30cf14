import PinnedStack.Host.Shell.Builtin.Processes
import PinnedStack.Host.Tool.Printf
import PinnedStack.Host.Tool.Test

/-!
# Commands that write or test

* `Builtin.echo`, `Builtin.printf` — write text. `Builtin.test` — answers a question.
* `Builtin.changeDirectory`, `Builtin.showDirectory` — the working directory.
-/

namespace PinnedStack.Shell.Builtin

/-- Writes bytes to the output of a command, and fails if there is no room. -/
def write (name : String) (bytes : List UInt8) : Act Unit := do
  let s ← get
  match if bytes.isEmpty then none else s.writeError? 1 with
  | none => set (s.write 1 bytes)
  | some e => do
      if s.dialect = .standard then Act.warn s!"{name}: I/O error"
      else Act.warn s!"write error: {e.reason}"
      Act.setStatus 1

/-- The options of `echo` in the extended language: whether escapes count, whether a line feed
ends the text, and the words. -/
def echoOptions (escapes feed : Bool) : List String → Bool × Bool × List String
  | [] => (escapes, feed, [])
  | arg :: rest =>
      match arg.toList with
      | '-' :: c :: more =>
          if (c :: more).all fun c => c = 'n' || c = 'e' || c = 'E' then
            let last := ((c :: more).reverse.find? (· ≠ 'n')).map (· == 'e')
            echoOptions (last.getD escapes) (feed && !(c :: more).contains 'n') rest
          else (escapes, feed, arg :: rest)
      | _ => (escapes, feed, arg :: rest)

/-- Writes its arguments with blanks between them. -/
def echo : Builtin := fun _ _ name args => do
  Act.setStatus 0
  if ← Act.isStandard then write name (Escape.echo args)
  else
    let (escapes, feed, words) := echoOptions false true args
    let text := String.intercalate " " words
    let (bytes, cut) := if escapes then Escape.expandMore text else (utf8Bytes text, false)
    write name (if feed && !cut then bytes ++ [10] else bytes)

/-- The wording of a complaint of `printf` in the extended language. -/
def printfComplaint (message : String) : String :=
  ((message.replace "expected numeric value" "invalid number").replace
    "not completely converted" "invalid number")

def printf : Builtin := fun _ _ name args => do
  let standard ← Act.isStandard
  let (_, operands) ← Act.options "" args
  match operands with
  | [] =>
      if standard then Act.fail "usage: printf format [arg ...]"
      else stopWith "printf: usage: printf [-v var] format [arguments]\n" 2
  | format :: values => do
      Act.setStatus 0
      let o := Printf.run (!standard) format values
      write name o.out
      for message in o.warnings do
        Act.warn (if standard then message else printfComplaint message)
        Act.setStatus 1
      match o.stop with
      | some (some message) =>
          let letter := String.ofList (((message.splitOn ":").headD "").toList.reverse.take 1)
          Act.reject message s!"\x60{letter}': invalid format character" 1
      | _ => pure ()

/-- The wording of a complaint of `test` in the extended language. -/
def testComplaint (words : List String) (message : String) : String :=
  if message.startsWith "Illegal number: " then
    let word := String.ofList (message.toList.drop 16)
    s!"{word}: integer expression expected"
  else
    match words with
    | [first, _] => s!"{first}: unary operator expected"
    | [_, second, _] => s!"{second}: binary operator expected"
    | _ => "too many arguments"

def test : Builtin := fun _ _ name args => do
  let isBracket := name = "["
  if isBracket && args.getLast? ≠ some "]" then
    Act.reject "missing ]" "missing \x60]'" 2
  let words := if isBracket then args.dropLast else args
  match Test.run (← get).disk words with
  | .ok answer => Act.setStatus (if answer then 0 else 1)
  | .error message => Act.reject message (testComplaint words message) 2

/-- Makes a directory the working directory. -/
def changeDirectory : Builtin := fun _ _ _ args => do
  let (_, operands) ← Act.options "LP" args
  let s ← get
  let target := match operands with
    | [] => (s.get? "HOME").getD ""
    | path :: _ => if path = "-" then (s.get? "OLDPWD").getD "" else path
  Act.setStatus 0
  if target ≠ "" then
    match s.disk.enter target with
    | .error e =>
        Act.reject s!"can't cd to {operands.headD target}" s!"{target}: {e.reason}" 1
    | .ok disk => do
        let old := (s.get? "PWD").getD (Disk.absolute s.disk.here)
        set { s with disk := disk }
        Act.assign "OLDPWD" old
        Act.assign "PWD" (Disk.absolute disk.here)
        if operands.head? = some "-" then Act.say 1 (Disk.absolute disk.here ++ "\n")

def showDirectory : Builtin := fun _ _ name args => do
  let _ ← Act.options "LP" args
  Act.setStatus 0
  write name (utf8Bytes (Disk.absolute (← get).disk.here ++ "\n"))

end PinnedStack.Shell.Builtin
