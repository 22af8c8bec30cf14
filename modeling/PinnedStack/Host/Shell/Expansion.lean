import PinnedStack.Host.Shell.Arithmetic
import PinnedStack.Host.Shell.Subshell

/-!
# Expanding words

* `Expansion.word` — the glyphs that a word stands for.
* `Expansion.fields` — cuts glyphs into fields. `Expansion.paths` — the paths that match a field.
* `Act.texts`, `Act.text`, `Act.pattern` — what a word stands for in a command.
-/

namespace PinnedStack.Shell.Expansion

/-- How a word is expanded: whether it may stand for several fields, and whether a tilde counts
after a colon too. -/
structure Style where
  fields : Bool
  assignment : Bool
deriving DecidableEq

def glyphs (text : String) (quoted splits : Bool) : List Glyph :=
  text.toList.map fun c => .char c quoted splits

/-! ## Parameters -/

/-- The characters that separate fields. -/
def separators (s : Session) : List Char :=
  match s.var? "IFS" with
  | some v => (v.value.getD "").toList
  | none => [' ', '\t', '\n']

/-- The text between parameters that are joined. -/
def joiner (s : Session) : String := String.ofList ((separators s).take 1)

/-- The order in which the letters of options are listed. -/
def flagOrder : List Char := "ubaCEVvxsnmiIfe".toList

def parameter? (s : Session) (name : String) : Option String :=
  match name with
  | "@" => some (String.intercalate (joiner s) s.params)
  | "*" => some (String.intercalate (joiner s) s.params)
  | "#" => some (toString s.params.length)
  | "?" => some (toString s.status)
  | "$" => some (toString processNumber)
  | "!" => s.lastJob.map toString
  | "-" => some (String.ofList ((flagOrder.filter s.has)
      ++ if s.dialect = .extended then ['h', 'B'] else []))
  | "0" => some s.name
  | "LINENO" => if s.dialect = .extended then some (toString s.line) else s.get? name
  | _ =>
      if name.toList.all Char.isDigit then s.params[(name.toNat?.getD 0) - 1]?
      else s.get? name

/-- The values of a parameter that stands for several. -/
def values? (s : Session) (quoted : Bool) (name : String) : Option (List String) :=
  if name = "@" ∨ (name = "*" ∧ !quoted) then some s.params else none

/-- The glyphs of texts that are fields of their own. -/
def listGlyphs (quoted : Bool) (texts : List String) : List Glyph :=
  let one (text : String) : List Glyph :=
    if quoted then .mark :: glyphs text true false else glyphs text false true
  ((texts.map one).intersperse [.cut]).flatten

def valueGlyphs (s : Session) (style : Style) (name value : String) (quoted : Bool) :
    List Glyph :=
  match if style.fields then values? s quoted name else none with
  | some texts => listGlyphs quoted texts
  | none => if quoted then .mark :: glyphs value true false else glyphs value false true

/-- Complains about a parameter without a value. -/
def unsetParameter {α : Type} (name : String) (ifEmpty : Bool) (message : String) : Act α := do
  let standard := (← get).dialect == .standard
  let nothing := if ifEmpty then s!"{name}: parameter not set or null"
    else s!"{name}: parameter not set"
  if message ≠ "" then Act.fail s!"{name}: {message}"
  else if standard then Act.fail nothing
  else Act.fail (nothing.replace "not set or null" "null or not set")

/-- The value of a parameter, which may have to be set. -/
def demanded (name : String) : Act String := do
  let s ← get
  match parameter? s name with
  | some value => return value
  | none =>
      if s.has 'u' then
        if s.dialect = .standard then Act.fail s!"{name}: parameter not set"
        else
          let sign := if name.toList.all Char.isDigit then "$" else ""
          Act.fail s!"{sign}{name}: unbound variable"
      else return ""

/-! ## Parts of values -/

/-- Takes a part that matches a pattern away from a value. -/
def trimmed (trim : Trim) (items : List PatternItem) (value : String) : String :=
  let chars := value.toList
  let last (lengths : List Nat) : Nat := lengths.getLast?.getD 0
  let first (lengths : List Nat) : Nat := lengths.head?.getD 0
  let withoutEnd (n : Nat) : String := String.ofList (chars.take (chars.length - n))
  let withoutStart (n : Nat) : String := String.ofList (chars.drop n)
  match trim with
  | .shortestEnd => withoutEnd (first (Pattern.endLengths items chars))
  | .longestEnd => withoutEnd (last (Pattern.endLengths items chars))
  | .shortestStart => withoutStart (first (Pattern.startLengths items chars))
  | .longestStart => withoutStart (last (Pattern.startLengths items chars))

/-- Replaces matches of a pattern in a value; `skip` counts characters of a match before. -/
def replacedIn (every : Bool) (items : List PatternItem) (text : List Char) (skip : Nat) :
    List Char → List Char
  | [] => []
  | c :: rest =>
      match skip with
      | n + 1 => replacedIn every items text n rest
      | 0 =>
          match (Pattern.startLengths items (c :: rest)).getLast? with
          | some (n + 1) =>
              if every then text ++ replacedIn every items text n rest
              else text ++ (c :: rest).drop (n + 1)
          | _ => c :: replacedIn every items text 0 rest

/-- Replaces what matches a pattern in a value. -/
def replaced (which : Replaced) (items : List PatternItem) (text value : String) : String :=
  let chars := value.toList
  match which with
  | .first => String.ofList (replacedIn false items text.toList 0 chars)
  | .every => String.ofList (replacedIn true items text.toList 0 chars)
  | .atStart =>
      match (Pattern.startLengths items chars).getLast? with
      | some n => text ++ String.ofList (chars.drop n)
      | none => value
  | .atEnd =>
      match (Pattern.endLengths items chars).getLast? with
      | some n => String.ofList (chars.take (chars.length - n)) ++ text
      | none => value

/-- The part of a value from a place on; negative numbers count from the end. -/
def part (start : Int) (length : Option Int) (value : String) : String :=
  let chars := value.toList
  let size := Int.ofNat chars.length
  let start := if start < 0 then size + start else start
  if start < 0 ∨ size < start then ""
  else
    let stop := match length with
      | none => size
      | some n => if n < 0 then size + n else start + n
    String.ofList ((chars.drop start.toNat).take (stop - start).toNat)

/-- The texts of a list from a place on. -/
def partOfList (start : Int) (length : Option Int) (texts : List String) : List String :=
  let size := Int.ofNat texts.length
  let start := if start < 0 then size + start else start
  if start < 0 ∨ size < start then []
  else
    let count := (length.getD size).toNat
    (texts.drop start.toNat).take count

/-! ## Tildes -/

/-- The directory that a tilde and a name stand for. -/
def home? (s : Session) (name : String) : Option String :=
  if name = "" then s.get? "HOME" else if name = "root" then some "/root" else none

/-- The glyphs of text without quotes. A tilde counts at the start of a word, and in assignments
after a colon too. -/
def textGlyphs (s : Session) (style : Style) (atStart atEnd splits : Bool) (text : String) :
    List Glyph :=
  let pieces := if style.assignment then text.splitOn ":" else [text]
  let shown := pieces.mapIdx fun n piece =>
    let plain := glyphs piece false splits
    match piece.toList with
    | '~' :: rest =>
        let name := rest.takeWhile (· ≠ '/')
        let isWhole := name.length < rest.length || n + 1 < pieces.length || atEnd
        if (n = 0 ∧ !atStart) ∨ !isWhole then plain
        else
          match home? s (String.ofList name) with
          | some path => .mark :: glyphs path true false
              ++ glyphs (String.ofList (rest.drop name.length)) false splits
          | none => plain
    | _ => plain
  (shown.intersperse (glyphs ":" false splits)).flatten

/-! ## Words -/

mutual

/-- The glyphs that a word stands for. `atStart` says whether its first part starts a word, and
`splits` whether text without quotes may be cut into fields. -/
def word (i : Inner) (style : Style) (atStart splits : Bool) : List Piece → Act (List Glyph)
  | [] => return []
  | p :: rest => do
      let first ← piece i style atStart rest.isEmpty splits p
      return first ++ (← word i style false splits rest)

/-- The glyphs that a part of a word stands for. -/
def piece (i : Inner) (style : Style) (atStart atEnd splits : Bool) : Piece → Act (List Glyph)
  | .text text true => return .mark :: glyphs text true false
  | .text text false => return textGlyphs (← get) style atStart atEnd splits text
  | .parameter name u quoted => use i style name quoted u
  | .output commands quoted => do
      let text ← Act.outputOf i commands
      return if quoted then .mark :: glyphs text true false else glyphs text false true
  | .arithmetic e quoted => do
      let text := Glyph.text (← word i ⟨false, false⟩ false false e)
      let result := toString (← Arith.evaluate text)
      return if quoted then .mark :: glyphs result true false else glyphs result false true

/-- The glyphs that the use of a parameter stands for. -/
def use (i : Inner) (style : Style) (name : String) (quoted : Bool) : Use → Act (List Glyph)
  | .value => do
      let value ← demanded name
      return valueGlyphs (← get) style name value quoted
  | .length => do
      let s ← get
      let value ← demanded name
      let n :=
        if s.dialect = .standard then value.utf8ByteSize
        else
          match values? s false name with
          | some texts => texts.length
          | none => value.length
      return plain (toString n)
  | .orElse ifEmpty w => do
      let s ← get
      match present s ifEmpty with
      | some value => return valueGlyphs s style name value quoted
      | none => word i style true (!quoted) w
  | .instead ifEmpty w => do
      match present (← get) ifEmpty with
      | some _ => word i style true (!quoted) w
      | none => return []
  | .assign ifEmpty w => do
      let s ← get
      match present s ifEmpty with
      | some value => return valueGlyphs s style name value quoted
      | none => do
          let value := Glyph.text (← word i ⟨false, false⟩ true false w)
          if !Reader.isName name then Act.fail s!"{name}: bad variable name"
          Act.assign name value
          return plain value
  | .demand ifEmpty w => do
      let s ← get
      match present s ifEmpty with
      | some value => return valueGlyphs s style name value quoted
      | none => do
          let message := Glyph.text (← word i ⟨false, false⟩ true false w)
          unsetParameter name ifEmpty message
  | .trim trim w => do
      let value ← demanded name
      let items := Pattern.of (← word i ⟨false, false⟩ true false w)
      return each (← get) value (trimmed trim items)
  | .replace which pattern w => do
      let value ← demanded name
      let items := Pattern.of (← word i ⟨false, false⟩ true false pattern)
      let text := Glyph.text (← word i ⟨false, false⟩ true false w)
      return each (← get) value (replaced which items text)
  | .part start length => do
      let value ← demanded name
      let from_ ← Arith.evaluate (Glyph.text (← word i ⟨false, false⟩ false false start))
      let size ← match length with
        | none => pure none
        | some w => do
            pure (some (← Arith.evaluate (Glyph.text (← word i ⟨false, false⟩ false false w))))
      let s ← get
      match values? s quoted name with
      | some texts =>
          return listGlyphs quoted (partOfList from_ size (s.name :: texts))
      | none => return plain (part from_ size value)
  | .wrong => Act.fail "Bad substitution"
where
  present (s : Session) (ifEmpty : Bool) : Option String :=
    (parameter? s name).filter fun value => !(ifEmpty && value == "")
  plain (text : String) : List Glyph :=
    if quoted then .mark :: glyphs text true false else glyphs text false true
  each (s : Session) (value : String) (change : String → String) : List Glyph :=
    match if s.dialect = .extended then values? s quoted name else none with
    | some texts => listGlyphs quoted (texts.map change)
    | none => plain (change value)

end

/-! ## Fields -/

/-- Where the cutting of glyphs into fields is. After blanks that ended a field one separator may
follow; the glyphs of an open field come the latest first. -/
inductive Cutting where
  | fresh
  | afterBlank
  | open_ (field : List Glyph)

/-- Cuts glyphs into fields. Blanks among the separators only separate, every other separator ends
a field. -/
def fieldsFrom (marks : List Char) (state : Cutting) : List Glyph → List (List Glyph)
  | [] =>
      match state with
      | .open_ field => [field.reverse]
      | _ => []
  | g :: rest =>
      let field := match state with
        | .open_ field => field
        | _ => []
      let kept := fieldsFrom marks (.open_ (g :: field)) rest
      match g with
      | .mark => kept
      | .cut =>
          match state with
          | .open_ field => field.reverse :: fieldsFrom marks .fresh rest
          | _ => fieldsFrom marks .fresh rest
      | .char c quoted splits =>
          if quoted || !splits || !marks.contains c then kept
          else
            let isBlank := c = ' ' || c = '\t' || c = '\n'
            match state with
            | .open_ field =>
                field.reverse :: fieldsFrom marks (if isBlank then .afterBlank else .fresh) rest
            | .afterBlank => fieldsFrom marks (if isBlank then .afterBlank else .fresh) rest
            | .fresh =>
                if isBlank then fieldsFrom marks .fresh rest
                else [] :: fieldsFrom marks .fresh rest

def fields (marks : List Char) (all : List Glyph) : List (List Glyph) :=
  fieldsFrom marks .fresh all

/-! ## Paths -/

/-- The parts of a pattern between slashes. -/
def components : List PatternItem → List (List PatternItem)
  | [] => [[]]
  | .char '/' :: rest => [] :: components rest
  | item :: rest =>
      match components rest with
      | [] => [[item]]
      | first :: others => (item :: first) :: others

/-- The text of a pattern that is nothing but characters. -/
def patternText (items : List PatternItem) : String :=
  String.ofList (items.filterMap fun item =>
    match item with
    | .char c => some c
    | _ => none)

/-- The names in a directory that match a part of a pattern. Names that start with a dot have to
be asked for. -/
def namesFor (d : Disk) (directory : String) (items : List PatternItem) : List String :=
  match d.locate (if directory = "" then "." else directory) with
  | .error _ => []
  | .ok place =>
      let hidden := items.head? = some (.char '.')
      let known := (if hidden then [".", ".."] else []) ++ d.children place
      known.filter fun name =>
        (hidden || name.toList.head? ≠ some '.') && Pattern.isMatch items name.toList

/-- The paths that match the parts of a pattern after a directory. -/
def pathsFrom (d : Disk) (directory : String) : List (List PatternItem) → List String
  | [] => []
  | [last] =>
      if Pattern.isSpecial last then (namesFor d directory last).map (directory ++ ·)
      else
        let path := directory ++ patternText last
        match d.entryLink path with
        | .ok _ => [path]
        | .error _ => []
  | items :: rest =>
      let names :=
        if Pattern.isSpecial items then namesFor d directory items else [patternText items]
      names.flatMap fun name => pathsFrom d (directory ++ name ++ "/") rest

/-- The paths that match a field, or the field itself if it is no pattern or none matches. -/
def paths (s : Session) (field : List Glyph) : List String :=
  let items := Pattern.of field
  let plain := Glyph.text field
  if s.has 'f' ∨ !Pattern.isSpecial items then [plain]
  else
    let found := pathsFrom s.disk "" (components items)
    if found.isEmpty then [plain]
    else found.mergeSort fun a b => !(utf8Bytes b < utf8Bytes a)

end Expansion

namespace Act

open Expansion

def texts (i : Inner) (w : Word) : Act (List String) := do
  let all ← word i ⟨true, false⟩ true false w
  let s ← get
  return (fields (separators s) all).flatMap (paths s)

def allTexts (i : Inner) : List Word → Act (List String)
  | [] => return []
  | w :: rest => do
      let first ← texts i w
      return first ++ (← allTexts i rest)

/-- The one text that a word stands for. -/
def text (i : Inner) (w : Word) : Act String := do
  return Glyph.text (← word i ⟨false, false⟩ true false w)

/-- The value that a word stands for in an assignment. -/
def assigned (i : Inner) (w : Word) : Act String := do
  return Glyph.text (← word i ⟨false, true⟩ true false w)

/-- The pattern that a word stands for. -/
def pattern (i : Inner) (w : Word) : Act (List PatternItem) := do
  return Pattern.of (← word i ⟨false, false⟩ true false w)

end Act

end PinnedStack.Shell
