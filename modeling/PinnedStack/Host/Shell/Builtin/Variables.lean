import PinnedStack.Host.Shell.Builtin.Basic

/-!
# Commands about variables and options

* `Builtin.declare` — marks variables as seen by programs or as fixed. `Builtin.unset` — removes.
* `Builtin.local_` — variables of a function. `Builtin.setOptions` — options and parameters.
* `Builtin.read` — variables from a line of the input.
-/

namespace PinnedStack.Shell.Builtin

def quoted (text : String) : String :=
  if text = "" then "''"
  else
    let pieces := text.splitOn "'"
    let shown := pieces.map fun piece => if piece = "" then "" else s!"'{piece}'"
    String.intercalate "\"'\"" shown

/-- The variables in the order of their names. -/
def sorted (s : Session) : List Variable :=
  s.vars.mergeSort fun a b => !(utf8Bytes b.name < utf8Bytes a.name)

/-- A variable with its value as a script would assign it. -/
def shown (v : Variable) : String :=
  match v.value with
  | some value => s!"{v.name}={quoted value}"
  | none => v.name

/-- A text before and after its first equals sign. -/
def binding (text : String) : String × Option String :=
  let name := text.toList.takeWhile (· ≠ '=')
  match text.toList.drop name.length with
  | [] => (text, none)
  | _ :: value => (String.ofList name, some (String.ofList value))

def badName {α : Type} (name text : String) : Act α :=
  Act.reject s!"{name}: bad variable name" s!"\x60{text}': not a valid identifier" 1

/-- Marks variables as seen by programs or as fixed, perhaps with values. -/
def declare : Builtin := fun _ _ command args => do
  let (found, operands) ← Act.options (if ← Act.isStandard then "p" else "pnf") args
  let isExport := command = "export"
  Act.setStatus 0
  if operands.isEmpty ∨ found.any (·.1 == 'p') then
    for v in sorted (← get) do
      if if isExport then v.exported else v.fixed then Act.say 1 s!"{command} {shown v}\n"
  else
    for text in operands do
      let (name, value?) := binding text
      if !Reader.isName name then badName name text
      match value? with
      | some value => Act.assign name value
      | none => pure ()
      let s ← get
      let v := (s.var? name).getD { name := name, value := none }
      set (s.put { v with
        exported := if isExport then !found.any (·.1 == 'n') else v.exported
        fixed := v.fixed || !isExport })

def unset : Builtin := fun _ _ _ args => do
  let (found, operands) ← Act.options "fv" args
  Act.setStatus 0
  for name in operands do
    let s ← get
    if (found.getLast?.map (·.1)) = some 'f' then
      set { s with functions := s.functions.filter (·.1 != name) }
    else if !Reader.isName name then badName name name
    else if (s.var? name).any (·.fixed) then
      Act.reject s!"{name}: is read only" s!"{name}: cannot unset: readonly variable" 1
    else if s.dialect = .extended && (s.var? name).isNone then
      set { s with functions := s.functions.filter (·.1 != name) }
    else set (s.remove name)

/-- Notes what a variable was before the function that runs, and whether it is new there. -/
def keepLocal (name : String) : Act Bool := do
  let s ← get
  match s.locals with
  | [] => return false
  | frame :: outer =>
      if frame.any (·.1 == name) then return false
      set { s with locals := ((name, s.var? name) :: frame) :: outer }
      return true

/-- Makes variables of the function that runs. In the extended language they start without a
value. -/
def local_ : Builtin := fun _ _ _ args => do
  let s ← get
  if s.locals.isEmpty then Act.reject "not in a function" "can only be used in a function" 1
  Act.setStatus 0
  for text in args do
    let (name, value?) := binding text
    unless text = "-" do
      if !Reader.isName name then badName name text
      if (← keepLocal name) && s.dialect == .extended then
        modify fun s => s.put { name := name, value := none }
      match value? with
      | some value => Act.assign name value
      | none => pure ()

/-! ## Options -/

/-- The options with their names, in the order of lists. -/
def optionNames : List (String × Char) :=
  [("errexit", 'e'), ("noglob", 'f'), ("ignoreeof", 'I'), ("interactive", 'i'), ("monitor", 'm'),
    ("noexec", 'n'), ("stdin", 's'), ("xtrace", 'x'), ("verbose", 'v'), ("vi", 'V'),
    ("emacs", 'E'), ("noclobber", 'C'), ("allexport", 'a'), ("notify", 'b'), ("nounset", 'u'),
    ("nolog", 'g'), ("debug", 'd')]

/-- The letters of the options that can be set. -/
def optionLetters (d : Dialect) : List Char :=
  if d = .standard then "efIimnsxvVECabu".toList else "abefhkmnptuvxBCEHPT".toList

/-- Sets an option by its name, or takes it back. -/
def setNamed (on : Bool) (name : String) : Act Unit := do
  let s ← get
  if s.dialect = .extended && name = "pipefail" then set { s with strict := on }
  else
    match optionNames.lookup name with
    | some letter => set (s.setFlag letter on)
    | none =>
        if s.dialect = .extended && ["posix", "history", "physical", "errtrace", "functrace",
            "braceexpand", "hashall", "histexpand", "keyword", "onecmd", "privileged"].contains name
        then pure ()
        else
          Act.reject s!"Illegal option -o {name}" s!"{name}: invalid option name" 2

/-- Sets options by letters. The answer says whether a name follows. -/
def setLetters (on : Bool) : List Char → Act Bool
  | [] => return false
  | c :: rest => do
      let s ← get
      if c = 'o' then
        let _ ← setLetters on rest
        return true
      else if (optionLetters s.dialect).contains c then do
        set (s.setFlag c on)
        setLetters on rest
      else
        let sign := if on then "-" else "+"
        Act.reject s!"Illegal option -{c}" s!"{sign}{c}: invalid option" 2

def setFrom : List String → Act Unit
  | [] => pure ()
  | arg :: rest => do
      match arg.toList with
      | ['-', '-'] => modify fun s => { s with params := rest }
      | ['-'] =>
          modify fun s =>
            let s := (s.setFlag 'x' false).setFlag 'v' false
            if rest.isEmpty then s else { s with params := rest }
      | sign :: letters =>
          if sign ≠ '-' ∧ sign ≠ '+' then modify fun s => { s with params := arg :: rest }
          else do
            let on := sign = '-'
            let named ← setLetters on letters
            if named then
              match rest with
              | [] => pure ()
              | name :: others => do
                  setNamed on name
                  setFrom others
            else setFrom rest
      | [] => modify fun s => { s with params := arg :: rest }

/-- Sets options and parameters, or lists the variables. -/
def setOptions : Builtin := fun _ _ _ args => do
  Act.setStatus 0
  if args.isEmpty then
    for v in sorted (← get) do
      if v.value.isSome then Act.say 1 (shown v ++ "\n")
  else setFrom args

/-! ## Reading lines -/

/-- A line at the start of some bytes: its characters, each with whether it is escaped, the bytes
after it, and whether it is complete. A backslash escapes, and at the end of a line joins it. -/
def lineAt (raw : Bool) : List UInt8 → List (UInt8 × Bool) × List UInt8 × Bool
  | [] => ([], [], false)
  | b :: rest =>
      if b = 10 then ([], rest, true)
      else if b = 92 ∧ !raw then
        match rest with
        | [] => ([], [], false)
        | c :: more =>
            if c = 10 then lineAt raw more
            else
              let (line, after, complete) := lineAt raw more
              ((c, true) :: line, after, complete)
      else
        let (line, after, complete) := lineAt raw rest
        ((b, false) :: line, after, complete)

/-- The characters of bytes; those of bytes that are escaped are quoted. -/
def lineGlyphs (line : List (UInt8 × Bool)) : List Glyph :=
  let groups := line.splitBy fun a b => a.2 == b.2
  groups.flatMap fun group =>
    let isEscaped := group.head?.any (·.2)
    let text := ofUtf8Lossy ((group.map (·.1)).filter (· ≠ 0))
    (text.toList.map fun c => Glyph.char c isEscaped true)

/-- Is a character a blank that separates fields? -/
def isBlankMark (marks : List Char) : Glyph → Bool
  | .char c quoted _ => !quoted && marks.contains c && (c = ' ' || c = '\t' || c = '\n')
  | _ => false

def isMark (marks : List Char) : Glyph → Bool
  | .char c quoted _ => !quoted && marks.contains c
  | _ => false

/-- Cuts a field off the front: its characters and those after the separator. -/
def cutField (marks : List Char) (line : List Glyph) : List Glyph × List Glyph :=
  let field := line.takeWhile fun g => !isMark marks g
  let after := (line.drop field.length).dropWhile (isBlankMark marks)
  match after with
  | g :: rest =>
      if isMark marks g ∧ !isBlankMark marks g then (field, rest.dropWhile (isBlankMark marks))
      else (field, after)
  | [] => (field, [])

/-- The values of variables from a line; the last one takes what is left. -/
def cutLine (marks : List Char) (names : List String) (line : List Glyph) :
    List (String × String) :=
  match names with
  | [] => []
  | [name] =>
      let (field, after) := cutField marks line
      if after.isEmpty then [(name, Glyph.text field)]
      else
        let back := line.reverse.dropWhile (isBlankMark marks)
        [(name, Glyph.text back.reverse)]
  | name :: rest =>
      let (field, after) := cutField marks line
      (name, Glyph.text field) :: cutLine marks rest after

/-- Reads a line of the input into variables. -/
def read : Builtin := fun _ _ _ args => do
  let standard ← Act.isStandard
  let (found, names) ← Act.options (if standard then "p:r" else "ersd:i:n:N:p:t:u:") args
  if names.isEmpty && standard then Act.fail "arg count"
  let names := if names.isEmpty then ["REPLY"] else names
  let descriptor := ((found.lookup 'u').bind String.toNat?).getD 0
  let s ← get
  let (line, rest, complete) := lineAt (found.any (·.1 == 'r')) (s.readable descriptor)
  set (s.leave descriptor rest.length)
  let marks := Expansion.separators s
  let glyphs := lineGlyphs line
  let whole := args.all (·.startsWith "-") && !standard
  let start := if whole then glyphs else glyphs.dropWhile (isBlankMark marks)
  for (name, value) in cutLine marks names start do
    if !Reader.isName name then badName name name
    Act.assign name value
  Act.setStatus (if complete then 0 else 1)

end PinnedStack.Shell.Builtin
