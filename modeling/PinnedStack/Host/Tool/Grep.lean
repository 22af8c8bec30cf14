import PinnedStack.Host.Tool.Lines

/-!
# Searching lines

* `Tool.grep` — the program `grep`.
-/

namespace PinnedStack.Tool

open Options (Spec Parsed)

structure Search where
  patterns : List Regex
  fold : Bool
  wholeLine : Bool
  wholeWord : Bool

/-- An expression that matches a text as it is. -/
def literal (text : String) : Regex := text.toList.foldr (fun c r => .seq (.char c) r) .empty

/-- An expression for whole lines or words. -/
def Search.framed (s : Search) (r : Regex) : Regex :=
  if s.wholeLine then .seq .lineStart (.seq (.group 0 r) .lineEnd)
  else if s.wholeWord then
    .seq (.either .lineStart (.either .wordStart (.border true)))
      (.seq (.group 0 r) (.either .lineEnd (.either .wordEnd (.border true))))
  else r

/-- The first match in a line from a place on; of several that start there the longest. -/
def Search.find? (s : Search) (spot : Regex.Spot) : Option Regex.Match :=
  let found := s.patterns.filterMap fun r =>
    Regex.findFrom? (s.framed r) s.fold (spot.after.length + 1) spot
  found.foldl (fun best m =>
    match best with
    | none => some m
    | some b =>
        let earlier := m.start.after.length > b.start.after.length
        let same := m.start.after.length = b.start.after.length
        if earlier ∨ (same ∧ m.stop.after.length < b.stop.after.length) then some m else best) none

/-- All matches in a line that hold a character. -/
def Search.all (s : Search) (tries : Nat) (spot : Regex.Spot) : List String :=
  match tries with
  | 0 => []
  | n + 1 =>
      match s.find? spot with
      | none => []
      | some m =>
          if m.text = "" then
            if m.stop.after.isEmpty then [] else s.all n m.stop.next
          else m.text :: s.all n m.stop

/-- The options of `grep`. -/
def grepSpec : Spec := .of "A:B:C:EFGHILPUVZabcd:e:f:hilm:noqrRsvwxyz"
  [("extended-regexp", "E"), ("fixed-strings", "F"), ("basic-regexp", "G"), ("regexp", "e"),
    ("file", "f"), ("ignore-case", "i"), ("word-regexp", "w"), ("line-regexp", "x"),
    ("no-messages", "s"), ("invert-match", "v"), ("max-count", "m"), ("line-number", "n"),
    ("with-filename", "H"), ("no-filename", "h"), ("only-matching", "o"), ("quiet", "q"),
    ("silent", "q"), ("recursive", "r"), ("files-without-match", "L"),
    ("files-with-matches", "l"), ("count", "c"), ("after-context", "A"),
    ("before-context", "B"), ("context", "C"), ("text", "a"), ("byte-offset", "b"),
    ("color=", "color"), ("colour=", "color")]

/-- Fails with the usage of `grep`. -/
def grepUsage (j : Job) : Job :=
  let j := j.emit .err (utf8Bytes s!"Usage: {j.call.name} [OPTION]... PATTERNS [FILE]...\n")
  (j.emit .err (utf8Bytes s!"Try '{j.call.name} --help' for more information.\n")).withStatus 2

/-- The lines of the patterns that are searched for. -/
def grepPatterns (j : Job) (p : Parsed) : Except Job (List String × List String × Job) :=
  let given := p.options.filter fun o => o.1 == "e" || o.1 == "f"
  let split (text : String) : List String := text.splitOn "\n"
  if given.isEmpty then
    match p.operands with
    | [] => .error (grepUsage j)
    | pattern :: paths => .ok (split pattern, paths, j)
  else
    let step (state : Except Job (List String × Job)) (o : String × String) :
        Except Job (List String × Job) :=
      match state with
      | .error j => .error j
      | .ok (lines, j) =>
          if o.1 = "e" then .ok (lines ++ split o.2, j)
          else
            match j.readPath o.2 with
            | (.ok bytes, j) => .ok (lines ++ textLines bytes, j)
            | (.error e, j) => .error (j.complain s!"{o.2}: {e.reason}" 2)
    match given.foldl step (.ok ([], j)) with
    | .error j => .error j
    | .ok (lines, j) => .ok (lines, p.operands, j)

/-- The lines around the chosen ones that are shown too, by their numbers. -/
def contextOf (before after count : Nat) (chosen : List Nat) : List Nat :=
  (List.range count).filter fun i => chosen.any fun c => i ≤ c + after && c ≤ i + before

/-- Searches one file: how many lines were chosen, and what is shown of them. -/
def grepLines (p : Parsed) (s : Search) (label : String) (lines : List String) : Nat × String :=
  let isChosen (line : String) : Bool := (s.find? ⟨[], line.toList⟩).isSome != p.has "v"
  let numbered := lines.mapIdx fun i line => (i, line)
  let all := numbered.filter fun (_, line) => isChosen line
  let chosen := match (p.value? "m").bind String.toNat? with
    | some most => all.take most
    | none => all
  let head (mark : String) (i : Nat) : String :=
    (if label = "" then "" else label ++ mark)
      ++ (if p.has "n" then s!"{i + 1}{mark}" else "")
      ++ (if p.has "b" then
          s!"{((lines.take i).map fun l => l.utf8ByteSize + 1).foldl (· + ·) 0}{mark}" else "")
  let number (key : String) : Option Nat := (p.value? key).bind String.toNat?
  let around := (number "C").getD 0
  let before := (number "B").getD around
  let after := (number "A").getD around
  let text :=
    if p.has "o" then
      if p.has "v" then ""
      else String.join (chosen.flatMap fun (i, line) =>
        (s.all (line.length + 1) ⟨[], line.toList⟩).map fun found => head ":" i ++ found ++ "\n")
    else if before + after = 0 then
      String.join (chosen.map fun (i, line) => head ":" i ++ line ++ "\n")
    else
      let indices := chosen.map (·.1)
      let shown := contextOf before after lines.length indices
      String.join ((shown.zip (none :: shown.map some)).map fun (i, last) =>
        let gap := match last with
          | some l => decide (l + 1 < i)
          | none => false
        let mark := if indices.contains i then ":" else "-"
        (if gap then "--\n" else "") ++ head mark i ++ lines[i]?.getD "" ++ "\n")
  (chosen.length, text)

/-- The program `grep`; `extended` and `fixed` are the notations that its name may ask for. -/
def grepAs (extended fixed : Bool) (j : Job) : Job :=
  let name := if extended ∨ fixed then "grep" else j.call.name
  let j := { j with call := { j.call with name := name } }
  match Options.parse grepSpec (modernArgs j.call.args) with
  | .error text => grepUsage (j.complain text 2)
  | .ok p =>
      if p.has "help" ∨ p.has "version" then j
      else
        match grepPatterns j p with
        | .error j => j
        | .ok (lines, paths, j) =>
            let notation? := p.last? ["E", "F", "G"]
            let isExtended := notation? = some "E" ∨ (notation?.isNone ∧ extended)
            let isFixed := notation? = some "F" ∨ (notation?.isNone ∧ fixed)
            let parsed := lines.mapM fun line =>
              if isFixed then .ok (literal line) else Regex.parse isExtended line
            match parsed with
            | .error text => j.complain text 2
            | .ok patterns =>
                let s : Search := ⟨patterns, p.has "i" || p.has "y", p.has "x", p.has "w"⟩
                let many := paths.length > 1 ∨ p.has "r" ∨ p.has "R"
                let named := p.last? ["H", "h"] = some "H" ∨ (many ∧ p.last? ["H", "h"] ≠ some "h")
                let step (state : Job × Bool) (path : String) : Job × Bool :=
                  let (j, hit) := state
                  if hit ∧ p.has "q" then state
                  else
                    let label := if path = "-" then "(standard input)" else path
                    match j.readPath path with
                    | (.error e, j) =>
                        if e = .isDirectory ∧ (p.has "r" ∨ p.has "R") then (j, hit)
                        else if p.has "s" then (j.withStatus 2, hit)
                        else (j.complain s!"{label}: {e.reason}" 2, hit)
                    | (.ok bytes, j) =>
                        let heading := if named then label else ""
                        let (n, text) := grepLines p s heading (textLines bytes)
                        let mark := if named then label ++ ":" else ""
                        let shown :=
                          if p.has "q" then ""
                          else if p.has "l" then (if n > 0 then label ++ "\n" else "")
                          else if p.has "L" then (if n = 0 then label ++ "\n" else "")
                          else if p.has "c" then s!"{mark}{n}\n"
                          else text
                        let found := if p.has "L" then n = 0 else n > 0
                        (j.say shown, hit || found)
                let (j, hit) := (if paths.isEmpty then ["-"] else paths).foldl step (j, false)
                if hit ∧ p.has "q" then j.withStatus 0
                else if j.status ≠ 0 then j
                else j.withStatus (if hit then 0 else 1)

/-- The program `grep`. -/
def grep (j : Job) : Job := grepAs false false j

end PinnedStack.Tool
