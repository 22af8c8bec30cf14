import PinnedStack.Host.Tool.Lines
import PinnedStack.Host.Tool.Verdict

/-!
# Programs that work on their arguments

* `Tool.succeed`, `Tool.fail`, `Tool.echo`, `Tool.printf`, `Tool.test` — the programs `true`,
  `false`, `echo`, `printf` and `test`.
* `Tool.baseName`, `Tool.directoryName`, `Tool.sleep`, `Tool.workingDirectory` — the programs
  `basename`, `dirname`, `sleep` and `pwd`.
-/

namespace PinnedStack.Tool

open Options (Spec Parsed)

/-- The program `true`. -/
def succeed (j : Job) : Job := j.withStatus 0

/-- The program `false`. -/
def fail (j : Job) : Job := j.withStatus 1

/-! ## Text -/

/-- The options of `echo`: whether escapes count, whether a line feed ends the text, and the
words. -/
def echoOptions (escapes feed : Bool) : List String → Bool × Bool × List String
  | [] => (escapes, feed, [])
  | arg :: rest =>
      match arg.toList with
      | '-' :: c :: more =>
          if (c :: more).all fun c => c = 'n' || c = 'e' || c = 'E' then
            let last := ((c :: more).reverse.find? (· ≠ 'n')).map (· == 'e')
            echoOptions (last.getD escapes) (feed && !(c :: more).contains 'n') rest
          else (escapes, feed, arg :: rest)
      | _ => (escapes, feed, arg :: rest)

/-- Words with blanks between them, after the options of `echo`. -/
def echoed (args : List String) : List UInt8 :=
  let (escapes, feed, words) := echoOptions false true args
  let text := String.intercalate " " words
  let (bytes, cut) := if escapes then Escape.expandMore text else (utf8Bytes text, false)
  if feed && !cut then bytes ++ [10] else bytes

/-- The program `echo`. -/
def echo (j : Job) : Job :=
  if j.call.args = ["--help"] ∨ j.call.args = ["--version"] then j
  else j.emit .out (echoed j.call.args)

/-- A warning of a format as the program `printf` words it. -/
def printfWarning (text : String) : String :=
  match text.splitOn ": " with
  | [word, "expected numeric value"] => s!"{Quote.always word}: expected a numeric value"
  | [word, "not completely converted"] => s!"{Quote.always word}: value not completely converted"
  | [word, other] => s!"{Quote.always word}: {other}"
  | _ => text

/-- The program `printf`. -/
def printf (j : Job) : Job :=
  match if j.call.args.head? = some "--" then j.call.args.drop 1 else j.call.args with
  | [] => j.misused "missing operand" 1
  | format :: args =>
      if args.isEmpty ∧ (format = "--help" ∨ format = "--version") then j
      else
        let o := Printf.run true format args
        let j := j.emit .out o.out
        let j := o.warnings.foldl (fun j text => j.complain (printfWarning text) 1) j
        match o.stop with
        | some (some "missing format character") =>
            j.complain s!"{format}: invalid conversion specification" 1
        | some (some message) =>
            let directive := (message.splitOn ":").headD ""
            j.complain s!"{directive}: invalid conversion specification" 1
        | some none => j
        | none =>
            match o.args with
            | [] => j
            | arg :: _ =>
                j.warn s!"warning: ignoring excess arguments, starting with {Quote.always arg}"

/-- The program `test`, or `[` where a closing bracket has to follow. -/
def testAs (bracket : Bool) (j : Job) : Job :=
  if bracket ∧ j.call.args.getLast? ≠ some "]" then j.complain "missing ']'" 2
  else
    let words := if bracket then j.call.args.dropLast else j.call.args
    match Verdict.run j.disk words with
    | .ok answer => j.withStatus (if answer then 0 else 1)
    | .error message => j.complain message 2

/-! ## Names -/

/-- The program `basename`. -/
def baseName (j : Job) : Job :=
  let spec : Spec := { Spec.of "as:z" [("multiple", "a"), ("suffix", "s"), ("zero", "z")] with
    inOrder := true }
  j.withOptions spec 1 fun p =>
    let stop := if p.has "z" then "\x00" else "\n"
    let cut (path suffix : String) : String :=
      let name := lastName path
      if suffix ≠ "" ∧ name ≠ suffix ∧ name.endsWith suffix then
        String.ofList (name.toList.take (name.length - suffix.length))
      else name
    match p.operands with
    | [] => j.misused "missing operand" 1
    | path :: rest =>
        if p.has "a" ∨ p.has "s" then
          (path :: rest).foldl (fun j path => j.say (cut path ((p.value? "s").getD "") ++ stop)) j
        else
          match rest with
          | _ :: extra :: _ => j.misused s!"extra operand {Quote.always extra}" 1
          | _ => j.say (cut path (rest.headD "") ++ stop)

/-- The path of the directory that a path is in. -/
def directoryOf (path : String) : String :=
  let back := (withoutSlashes path).toList.reverse
  let rest := back.dropWhile (· ≠ '/')
  let stem := rest.dropWhile (· = '/')
  if stem.isEmpty then (if rest.isEmpty then "." else "/") else String.ofList stem.reverse

/-- The program `dirname`. -/
def directoryName (j : Job) : Job :=
  j.withOptions (.of "z" [("zero", "z")]) 1 fun p =>
    let stop := if p.has "z" then "\x00" else "\n"
    if p.operands.isEmpty then j.misused "missing operand" 1
    else p.operands.foldl (fun j path => j.say (directoryOf path ++ stop)) j

/-! ## Numbers -/

/-- A decimal number: its value times a power of ten, and how many places it has. -/
structure Fixed where
  value : Int
  places : Nat

def Fixed.ofText? (text : String) : Option Fixed :=
  let (negative, body) := match text.toList with
    | '-' :: rest => (true, rest)
    | '+' :: rest => (false, rest)
    | chars => (false, chars)
  let whole := body.takeWhile Char.isDigit
  let part? : Option (List Char) := match body.drop whole.length with
    | [] => some []
    | '.' :: rest => if rest.all Char.isDigit then some rest else none
    | _ => none
  match part? with
  | none => none
  | some part =>
      if whole.isEmpty && part.isEmpty then none
      else
        let n := Int.ofNat (NumberText.value 10 (whole ++ part))
        some ⟨if negative then -n else n, part.length⟩

/-! ## Surroundings -/

/-- The program `sleep`. -/
def sleep (j : Job) : Job :=
  j.withOptions (.of "" []) 1 fun p =>
    let isTime (text : String) : Bool :=
      let bare := match text.toList.reverse with
        | c :: rest => if "smhd".toList.contains c then String.ofList rest.reverse else text
        | [] => text
      (Fixed.ofText? bare).any (0 ≤ ·.value)
    match p.operands with
    | [] => j.misused "missing operand" 1
    | times =>
        match times.find? fun text => !isTime text with
        | some text => j.misused s!"invalid time interval {Quote.always text}" 1
        | none => j

/-- The program `pwd`. -/
def workingDirectory (j : Job) : Job :=
  j.withOptions (.of "LP" [("logical", "L"), ("physical", "P")]) 1 fun _ =>
    j.sayLine (Disk.absolute j.disk.here)

end PinnedStack.Tool
