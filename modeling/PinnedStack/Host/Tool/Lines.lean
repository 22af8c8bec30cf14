import PinnedStack.Host.Tool.Files
import PinnedStack.Host.Tool.Printf
import PinnedStack.Host.Tool.Regex

/-!
# Programs that read lines

* `Tool.linesOf` — the lines of bytes.
* `Tool.concatenate`, `Tool.tee`, `Tool.head`, `Tool.tail`, `Tool.count`, `Tool.exchangeChars` —
  the programs `cat`, `tee`, `head`, `tail`, `wc` and `tr`.
-/

namespace PinnedStack

namespace Tool

open Options (Spec Parsed)

/-- The wording of a failure with a path in front. -/
def pathFailure (path : String) (e : OsError) : String := s!"{Quote.ifNeeded path}: {e.reason}"

/-- The lines of bytes, each with the line feed at its end. -/
def linesOf (bytes : List UInt8) : List (List UInt8) :=
  bytes.foldr (fun b lines =>
    if b = 10 then [b] :: lines
    else
      match lines with
      | [] => [[b]]
      | line :: rest => (b :: line) :: rest) []

/-- The lines of text, without the line feeds. -/
def textLines (bytes : List UInt8) : List String :=
  let pieces := (ofUtf8Lossy bytes).splitOn "\n"
  if pieces.getLast? = some "" then pieces.dropLast else pieces

/-- A number with blanks in front up to a width. -/
def rightAligned (width n : Nat) : String :=
  let digits := toString n
  String.ofList (List.replicate (width - digits.length) ' ') ++ digits

/-! ## Whole files -/

/-- A byte as `cat -v` shows it. -/
def visible (b : UInt8) : List UInt8 :=
  let low (b : UInt8) : List UInt8 :=
    if b < 32 then [94, b + 64] else if b = 127 then [94, 63] else [b]
  if b < 128 then low b else [77, 45] ++ low (b - 128)

/-- The program `cat`. -/
def concatenate (j : Job) : Job :=
  let spec : Spec := .of "benstuvAET"
    [("number-nonblank", "b"), ("show-ends", "E"), ("number", "n"), ("squeeze-blank", "s"),
      ("show-tabs", "T"), ("show-nonprinting", "v"), ("show-all", "A")]
  j.withOptions spec 1 fun p =>
    let has (key : String) : Bool := p.has key
    let ends := has "E" || has "A" || has "e"
    let tabs := has "T" || has "A" || has "t"
    let marks := has "v" || has "A" || has "e" || has "t"
    let plain := !(ends || tabs || marks || has "b" || has "n" || has "s")
    let show1 (b : UInt8) : List UInt8 :=
      if b = 10 then (if ends then [36, 10] else [10])
      else if b = 9 then (if tabs then [94, 73] else [9])
      else if marks then visible b
      else [b]
    let line (state : List UInt8 × Nat × Bool) (bytes : List UInt8) :
        List UInt8 × Nat × Bool :=
      let (out, n, wasBlank) := state
      let blank := bytes == [10]
      if has "s" && blank && wasBlank then state
      else
        let numbered := if has "b" then !blank else has "n"
        let number := if numbered then utf8Bytes (rightAligned 6 (n + 1) ++ "\t") else []
        (out ++ number ++ bytes.flatMap show1, if numbered then n + 1 else n, blank)
    let step (state : Job × Nat × Bool) (path : String) : Job × Nat × Bool :=
      let (j, n, wasBlank) := state
      match j.readPath path with
      | (.error e, j) => (j.complain (pathFailure path e) 1, n, wasBlank)
      | (.ok bytes, j) =>
          if plain then (j.emit .out bytes, n, wasBlank)
          else
            let (out, n, wasBlank) := (linesOf bytes).foldl line ([], n, wasBlank)
            (j.emit .out out, n, wasBlank)
    ((if p.operands.isEmpty then ["-"] else p.operands).foldl step (j, 0, false)).1

/-- The program `tee`. -/
def tee (j : Job) : Job :=
  j.withOptions (.of "aip" [("append", "a"), ("ignore-interrupts", "i")]) 1 fun p =>
    let (bytes, j) := j.drain
    let j := j.emit .out bytes
    p.operands.foldl (fun j path =>
      let opened := if p.has "a" then
          match j.disk.open? path Disk.plainMode with
          | .ok (opened, disk) => .ok (opened, { j with disk := disk })
          | .error e => .error e
        else j.openNew path
      match opened with
      | .error e => j.complain (pathFailure path e) 1
      | .ok (opened, j) =>
          match j.put opened bytes with
          | .ok j => j
          | .error e => j.complain (pathFailure path e) 1) j

/-! ## Parts of files -/

/-- The number of lines or bytes in an argument; a letter after it multiplies. -/
def amount? (text : String) : Option Nat :=
  let digits := text.toList.takeWhile Char.isDigit
  let unit := match text.toList.drop digits.length with
    | [] => some 1
    | ['b'] => some 512
    | ['k'] => some 1024
    | ['K'] => some 1024
    | ['M'] => some 1048576
    | _ => none
  if digits.isEmpty then none else unit.map (NumberText.value 10 digits * ·)

/-- Arguments in which a number after a dash is an option of its own. -/
def modernArgs (args : List String) : List String :=
  match args with
  | first :: rest =>
      match first.toList with
      | '-' :: c :: more =>
          if c.isDigit ∧ more.all Char.isDigit then "-n" :: String.ofList (c :: more) :: rest
          else args
      | _ => args
  | [] => []

/-- What `head` and `tail` are asked for: the unit, the sign before the count, and the count. -/
structure Portion where
  bytes : Bool
  sign : Option Char
  count : Nat

/-- Reads what `head` and `tail` are asked for. -/
def portion (p : Parsed) : Except String Portion :=
  let bytes := p.last? ["n", "c"] = some "c"
  let text := if bytes then (p.value? "c").getD "" else (p.value? "n").getD "10"
  let (sign, body) := match text.toList with
    | '-' :: rest => (some '-', String.ofList rest)
    | '+' :: rest => (some '+', String.ofList rest)
    | _ => (none, text)
  match amount? body with
  | some n => .ok ⟨bytes, sign, n⟩
  | none =>
      let what := if bytes then "bytes" else "lines"
      .error s!"invalid number of {what}: {Quote.always body}"

/-- The part of some bytes that is asked for, at the start or at the end. -/
def Portion.of (q : Portion) (atEnd : Bool) (content : List UInt8) : List UInt8 :=
  let units := if q.bytes then content.map fun b => [b] else linesOf content
  let most := units.length
  let kept :=
    if atEnd then
      if q.sign = some '+' then units.drop (q.count - 1) else units.drop (most - q.count)
    else if q.sign = some '-' then units.take (most - q.count)
    else units.take q.count
  kept.flatten

/-- The programs `head` and `tail`. -/
def ends (atEnd : Bool) (j : Job) : Job :=
  let spec : Spec := .of (if atEnd then "c:n:fFqs:vz" else "c:n:qvz")
    [("bytes", "c"), ("lines", "n"), ("quiet", "q"), ("silent", "q"), ("verbose", "v"),
      ("zero-terminated", "z")]
  let plus (args : List String) : List String :=
    match args with
    | first :: rest =>
        match atEnd, first.toList with
        | true, '+' :: c :: _ => if c.isDigit then "-n" :: first :: rest else args
        | _, _ => args
    | [] => []
  let j := { j with call := { j.call with args := modernArgs (plus j.call.args) } }
  j.withOptions spec 1 fun p =>
    match portion p with
    | .error text => j.complain text 1
    | .ok q =>
        let headed := !p.has "q" && (p.has "v" || p.operands.length > 1)
        let step (state : Job × Bool) (path : String) : Job × Bool :=
          let (j, first) := state
          let name := if path = "-" then "standard input" else path
          let title := (if first then "" else "\n") ++ s!"==> {name} <==\n"
          match j.readPath path with
          | (.error .isDirectory, j) =>
              let j := if headed then j.say title else j
              (j.complain s!"error reading {Quote.always name}: Is a directory" 1, false)
          | (.error e, j) =>
              (j.complain s!"cannot open {Quote.always path} for reading: {e.reason}" 1, first)
          | (.ok bytes, j) =>
              let shown := q.of atEnd bytes
              let j := if path = "-" ∧ !atEnd ∧ j.call.fromFile then
                  { j with input := bytes.drop shown.length }
                else j
              let j := if headed then j.say title else j
              (j.emit .out shown, false)
        ((if p.operands.isEmpty then ["-"] else p.operands).foldl step (j, true)).1

/-- The program `head`. -/
def head (j : Job) : Job := ends false j

/-- The program `tail`. -/
def tail (j : Job) : Job := ends true j

/-! ## Counts -/

def isBlankByte (b : UInt8) : Bool := b = 32 || (9 ≤ b && b ≤ 13)

def wordCount (bytes : List UInt8) : Nat :=
  (bytes.foldl (fun (state : Nat × Bool) b =>
    if isBlankByte b then (state.1, false)
    else (if state.2 then state.1 else state.1 + 1, true)) (0, false)).1

/-- The lines, words, bytes and the length of the longest line. -/
def counts (bytes : List UInt8) : List Nat :=
  let longest := ((linesOf bytes).map fun l => (l.filter (· ≠ 10)).length).foldl max 0
  [bytes.count 10, wordCount bytes, bytes.length, bytes.length, longest]

/-- The program `wc`. -/
def count (j : Job) : Job :=
  let spec : Spec := .of "clLmw"
    [("bytes", "c"), ("chars", "m"), ("lines", "l"), ("words", "w"), ("max-line-length", "L")]
  j.withOptions spec 1 fun p =>
    let asked := ["l", "w", "m", "c", "L"].map p.has
    let shown := if asked.any id then asked else [true, true, false, true, false]
    let isSingle := p.operands.length ≤ 1 ∧ shown.count true = 1
    let sizes := (if p.operands.isEmpty then ["-"] else p.operands).map fun path =>
      if path = "-" then if j.call.fromFile then some j.input.length else none
      else
        match j.disk.entry path with
        | .ok (.file id) => some (j.disk.file id).bytes.length
        | .ok _ => none
        | .error _ => some 0
    let least := if sizes.any Option.isNone then 7 else 1
    let total := (sizes.map (·.getD 0)).foldl (· + ·) 0
    let width := if isSingle then 1 else max least (toString total).length
    let row (values : List Nat) (name : String) : String :=
      let columns := ((shown.zip values).filter (·.1)).map fun c => rightAligned width c.2
      String.intercalate " " columns ++ (if name = "" then "" else " " ++ name) ++ "\n"
    let step (state : Job × List Nat) (path : String) : Job × List Nat :=
      let (j, sums) := state
      let name := if p.operands.isEmpty then "" else Quote.ifNeeded path
      let add (values : List Nat) : List Nat :=
        (sums.zip values).mapIdx fun i c => if i = 4 then max c.1 c.2 else c.1 + c.2
      match j.readPath path with
      | (.error e, j) =>
          let shownPath := if path = "-" then "'standard input'" else Quote.ifNeeded path
          let j := j.complain s!"{shownPath}: {e.reason}" 1
          (if e = .isDirectory then j.say (row [0, 0, 0, 0, 0] name) else j, sums)
      | (.ok bytes, j) => (j.say (row (counts bytes) name), add (counts bytes))
    let (j, sums) := (if p.operands.isEmpty then ["-"] else p.operands).foldl step
      (j, [0, 0, 0, 0, 0])
    if p.operands.length > 1 then j.say (row sums "total") else j

/-! ## Characters -/

/-- The characters of a set of `tr`, with ranges, classes and escapes; `fuel` bounds their
number. -/
def charSet (fuel : Nat) (chars : List Char) : List Char :=
  match fuel, chars with
  | 0, _ => []
  | _, [] => []
  | n + 1, c :: rest =>
      match CharSet.named? chars with
      | some (name, after) =>
          ((List.range 128).map Char.ofNat).filter (CharSet.inClass name) ++ charSet n after
      | none =>
          let (first, after) := match c with
            | '\\' =>
                let (bytes, used) := Escape.next rest
                if used = 0 then (rest.headD '\\', rest.drop 1)
                else (Char.ofNat (bytes.headD 0).toNat, rest.drop used)
            | _ => (c, rest)
          match after with
          | '-' :: last :: more =>
              if last = ']' ∧ more.isEmpty ∧ c = '[' then first :: charSet n after
              else
                (List.range (last.toNat + 1 - first.toNat)).map
                    (fun i => Char.ofNat (first.toNat + i))
                  ++ charSet n more
          | _ => first :: charSet n after

/-- The program `tr`. -/
def exchangeChars (j : Job) : Job :=
  let spec : Spec := { Spec.of "cCdst"
    [("complement", "c"), ("delete", "d"), ("squeeze-repeats", "s"), ("truncate-set1", "t")] with
    inOrder := true }
  j.withOptions spec 1 fun p =>
    let set (text : String) : List Char := charSet text.length text.toList
    let complement := p.has "c" || p.has "C"
    let squeezed (set : List Char) (text : List Char) : List Char :=
      text.foldr (fun c rest =>
        if rest.head? = some c ∧ set.contains c then rest else c :: rest) []
    let run (change : List Char → List Char) : Job :=
      match j.readInput with
      | (.ok bytes, j) => j.say (String.ofList (change (ofUtf8Lossy bytes).toList))
      | (.error e, j) => j.complain s!"read error: {e.reason}" 1
    match p.operands with
    | [] => j.misused "missing operand" 1
    | [one] =>
        let chosen := set one
        let isIn (c : Char) : Bool := chosen.contains c != complement
        if p.has "d" ∧ p.has "s" then
          let j := j.complain s!"missing operand after {Quote.always one}" 1
          let j := j.emit .err (utf8Bytes
            "Two strings must be given when both deleting and squeezing repeats.\n")
          j.emit .err (utf8Bytes s!"Try '{j.call.name} --help' for more information.\n")
        else if p.has "d" then run fun text => text.filter (!isIn ·)
        else if p.has "s" then
          run fun text => text.foldr (fun c rest =>
            if rest.head? = some c ∧ isIn c then rest else c :: rest) []
        else
          let j := j.complain s!"missing operand after {Quote.always one}" 1
          let j := j.emit .err (utf8Bytes "Two strings must be given when translating.\n")
          j.emit .err (utf8Bytes s!"Try '{j.call.name} --help' for more information.\n")
    | [one, two] =>
        let first := set one
        let second := set two
        let isIn (c : Char) : Bool := first.contains c != complement
        if p.has "d" ∧ p.has "s" then run fun text => squeezed second (text.filter (!isIn ·))
        else if p.has "d" then
          let j := j.complain s!"extra operand {Quote.always two}" 1
          let j := j.emit .err (utf8Bytes
            "Only one string may be given when deleting without squeezing repeats.\n")
          j.emit .err (utf8Bytes s!"Try '{j.call.name} --help' for more information.\n")
        else if second.isEmpty ∧ !first.isEmpty then
          j.complain "when not truncating set1, string2 must be non-empty" 1
        else
          let last := second.getLast?.getD ' '
          let mapped (c : Char) : Char :=
            if complement then if first.contains c then c else last
            else
              match (first.reverse.idxOf? c).map fun i => first.length - 1 - i with
              | none => c
              | some i => if p.has "t" ∧ i ≥ second.length then c else second[i]?.getD last
          run fun text =>
            let changed := text.map mapped
            if p.has "s" then squeezed second changed else changed
    | _ :: _ :: extra :: _ => j.misused s!"extra operand {Quote.always extra}" 1

end Tool

end PinnedStack
