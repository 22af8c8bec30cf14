/-!
# Options of programs

* `Options.Spec` — the options that a program knows.
* `Options.parse` — reads arguments: letters after a dash, which may be joined, and names after
  two dashes, which may be cut short. Operands may stand before options, and `--` ends the options.
-/

namespace PinnedStack.Options

inductive Arity where
  | none
  | required
  | optional
deriving DecidableEq

/-- The options that a program knows. Each is known by its letter, or by its name if it has none; a
name stands for an option. Operands may end the options. -/
structure Spec where
  letters : List (Char × Arity)
  names : List (String × String × Arity)
  inOrder : Bool

/-- The letters of a program, each with a colon after it if it takes a value and with two if it
may take one. -/
def lettersOf : List Char → List (Char × Arity)
  | c :: ':' :: ':' :: rest => (c, .optional) :: lettersOf rest
  | c :: ':' :: rest => (c, .required) :: lettersOf rest
  | c :: rest => (c, .none) :: lettersOf rest
  | [] => []

/-- The options of a program: letters, and names with the letters that they stand for. A name
with `=` after it takes a value. -/
def Spec.of (letters : String) (names : List (String × String)) : Spec :=
  let known := lettersOf letters.toList
  let arity (key : String) : Arity :=
    match key.toList with
    | [c] => (known.lookup c).getD .none
    | _ => .none
  let named (name : String) : String × Arity :=
    if name.endsWith "=" then (String.ofList (name.toList.dropLast), .required) else (name, .none)
  { letters := known
    names := (names.map fun (name, key) =>
      let (bare, own) := named name
      (bare, key, if arity key = .none then own else arity key))
      ++ [("help", "help", .none), ("version", "version", .none)]
    inOrder := false }

/-- The options that were given, each with its value, and the operands. -/
structure Parsed where
  options : List (String × String)
  operands : List String

namespace Parsed

def has (p : Parsed) (key : String) : Bool := p.options.any (·.1 == key)

def value? (p : Parsed) (key : String) : Option String :=
  (p.options.reverse.find? (·.1 == key)).map (·.2)

/-- The last of some options that was given. -/
def last? (p : Parsed) (keys : List String) : Option String :=
  (p.options.reverse.find? fun o => keys.contains o.1).map (·.1)

end Parsed

/-- An option that waits for its value, with what is wrong if there is none. -/
abbrev Awaiting := Option (String × String)

/-- Reads the letters after a dash. The latest option comes first. -/
def cluster (s : Spec) : List Char → Except String (List (String × String) × Awaiting)
  | [] => .ok ([], none)
  | c :: rest =>
      let key := String.singleton c
      match s.letters.lookup c with
      | none => .error s!"invalid option -- '{key}'"
      | some .none =>
          match cluster s rest with
          | .error e => .error e
          | .ok (options, awaiting) => .ok (options ++ [(key, "")], awaiting)
      | some .optional => .ok ([(key, String.ofList rest)], none)
      | some .required =>
          if rest.isEmpty then .ok ([], some (key, s!"option requires an argument -- '{key}'"))
          else .ok ([(key, String.ofList rest)], none)

/-- The options that a name may mean: the one of that name, or those that it is the start of. -/
def named (s : Spec) (name : String) : List (String × String × Arity) :=
  match s.names.filter (·.1 == name) with
  | [] => s.names.filter fun known => known.1.startsWith name
  | exact => exact

/-- Reads a name after two dashes, which may have a value attached. -/
def long (s : Spec) (body : List Char) : Except String (List (String × String) × Awaiting) :=
  let name := String.ofList (body.takeWhile (· ≠ '='))
  let attached := match body.dropWhile (· ≠ '=') with
    | [] => none
    | _ :: value => some (String.ofList value)
  let found := named s name
  match found with
  | [] => .error s!"unrecognized option '--{String.ofList body}'"
  | (full, key, arity) :: others =>
      if others.any fun other => other.2 ≠ (key, arity) then
        let all := String.join (found.map fun known => s!" '--{known.1}'")
        .error s!"option '--{String.ofList body}' is ambiguous; possibilities:{all}"
      else
        match arity, attached with
        | .none, some _ => .error s!"option '--{full}' doesn't allow an argument"
        | .required, none => .ok ([], some (key, s!"option '--{full}' requires an argument"))
        | _, value => .ok ([(key, value.getD "")], none)

/-- Reads arguments; what was read so far is kept the latest first. -/
def parseFrom (s : Spec) (p : Parsed) (awaiting : Awaiting) : List String → Except String Parsed
  | [] =>
      match awaiting with
      | some (_, missing) => .error missing
      | none => .ok ⟨p.options.reverse, p.operands.reverse⟩
  | arg :: rest =>
      match awaiting with
      | some (key, _) => parseFrom s { p with options := (key, arg) :: p.options } none rest
      | none =>
          let next (found : List (String × String) × Awaiting) : Except String Parsed :=
            parseFrom s { p with options := found.1 ++ p.options } found.2 rest
          match arg.toList with
          | ['-', '-'] => .ok ⟨p.options.reverse, p.operands.reverse ++ rest⟩
          | '-' :: '-' :: body =>
              match long s body with
              | .error e => .error e
              | .ok found => next found
          | '-' :: c :: letters =>
              match cluster s (c :: letters) with
              | .error e => .error e
              | .ok found => next found
          | _ =>
              if s.inOrder then .ok ⟨p.options.reverse, arg :: rest⟩
              else parseFrom s { p with operands := arg :: p.operands } none rest

/-- Reads the arguments of a program, or says what is wrong with them. -/
def parse (s : Spec) (args : List String) : Except String Parsed := parseFrom s ⟨[], []⟩ none args

end PinnedStack.Options
