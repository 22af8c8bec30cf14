import PinnedStack.Host.NumberText

/-!
# Regular expressions

* `Regex` — expressions as data. `Regex.parse` — reads the basic or the extended notation.
* `Regex.find?` — the first match in a line, with what its groups matched.
* `CharSet` — sets of characters in brackets, as they also stand in the patterns of a shell.
-/

namespace PinnedStack

inductive CharRange where
  | range (low high : Char)
  | named (name : String)
deriving DecidableEq

structure CharSet where
  negated : Bool
  members : List CharRange
deriving DecidableEq

namespace CharSet

def inClass (name : String) (c : Char) : Bool :=
  match name with
  | "alpha" => c.isAlpha
  | "digit" => c.isDigit
  | "alnum" => c.isAlphanum
  | "upper" => c.isUpper
  | "lower" => c.isLower
  | "space" => c == ' ' || ('\t' ≤ c && c ≤ '\x0d')
  | "blank" => c == ' ' || c == '\t'
  | "punct" => '!' ≤ c && c ≤ '~' && !c.isAlphanum
  | "print" => ' ' ≤ c && c ≤ '~'
  | "graph" => '!' ≤ c && c ≤ '~'
  | "cntrl" => c < ' ' || c == '\x7f'
  | "xdigit" => c.isDigit || ('a' ≤ c && c ≤ 'f') || ('A' ≤ c && c ≤ 'F')
  | _ => false

def classNames : List String :=
  ["alpha", "digit", "alnum", "upper", "lower", "space", "blank", "punct", "print", "graph",
    "cntrl", "xdigit"]

def contains (s : CharSet) (c : Char) : Bool :=
  s.negated != s.members.any fun m =>
    match m with
    | .range low high => low ≤ c && c ≤ high
    | .named name => inClass name c

/-- The class in `[:name:]` at the start of some characters. -/
def named? (chars : List Char) : Option (String × List Char) :=
  match chars with
  | '[' :: ':' :: rest =>
      let name := rest.takeWhile Char.isAlpha
      match rest.drop name.length with
      | ':' :: ']' :: after =>
          let name := String.ofList name
          if classNames.contains name then some (name, after) else none
      | _ => none
  | _ => none

/-- Reads the members of a set up to its bracket; one that comes first is a member. -/
def membersAt (fuel : Nat) (first : Bool) (members : List CharRange) (chars : List Char) :
    Option (List CharRange × List Char) :=
  match fuel with
  | 0 => none
  | n + 1 =>
      match named? chars with
      | some (name, rest) => membersAt n false (members ++ [.named name]) rest
      | none =>
          match chars with
          | [] => none
          | ']' :: rest =>
              if first then membersAt n false (members ++ [.range ']' ']']) rest
              else some (members, rest)
          | a :: '-' :: b :: rest =>
              if b = ']' then membersAt n false (members ++ [.range a a]) ('-' :: b :: rest)
              else membersAt n false (members ++ [.range a b]) rest
          | a :: rest => membersAt n false (members ++ [.range a a]) rest

/-- Reads a set after its opening bracket. -/
def at? (marks chars : List Char) : Option (CharSet × List Char) :=
  match chars with
  | [] => none
  | c :: rest =>
      let negated := marks.contains c
      let body := if negated then rest else c :: rest
      (membersAt (chars.length + 1) true [] body).map fun (members, after) =>
        (⟨negated, members⟩, after)

end CharSet

/-- A regular expression. `border` is the border of a word, or a place that is none, and `same` is
what a group has matched. -/
inductive Regex where
  | empty
  | char (c : Char)
  | any
  | set (set : CharSet)
  | lineStart
  | lineEnd
  | border (negated : Bool)
  | wordStart
  | wordEnd
  | seq (first second : Regex)
  | either (first second : Regex)
  | repeated (body : Regex) (least : Nat) (most : Option Nat)
  | group (number : Nat) (body : Regex)
  | same (number : Nat)

namespace Regex

/-! ## Notation -/

/-- A character that starts an operator, or one that stands for itself. -/
inductive Token where
  | plain (c : Char)
  | operator (c : Char)
  | set (set : CharSet)
  | bounds (least : Nat) (most : Option Nat)
  | wrong (message : String)

def boundsAt (extended : Bool) (chars : List Char) : Option (Token × List Char) :=
  let low := chars.takeWhile Char.isDigit
  let rest := chars.drop low.length
  let finish (most : Option Nat) (rest : List Char) : Option (Token × List Char) :=
    let bounds : Token := .bounds (NumberText.value 10 low) most
    match extended, rest with
    | true, '\x7d' :: after => some (bounds, after)
    | false, '\\' :: '\x7d' :: after => some (bounds, after)
    | _, _ => none
  match rest with
  | ',' :: after =>
      let high := after.takeWhile Char.isDigit
      let most := if high.isEmpty then none else some (NumberText.value 10 high)
      finish most (after.drop high.length)
  | _ => if low.isEmpty then none else finish (some (NumberText.value 10 low)) rest

def tokenAt (extended : Bool) : List Char → Option (Token × List Char)
  | [] => none
  | '\\' :: [] => some (.wrong "Trailing backslash", [])
  | '\\' :: c :: rest =>
      if ['(', ')', '|', '+', '?'].contains c then
        some (if extended then .plain c else .operator c, rest)
      else if c = '\x7b' then
        if extended then some (.plain c, rest)
        else
          match boundsAt false rest with
          | some found => some found
          | none => some (.wrong "Unmatched \\\x7b", [])
      else if c.isDigit ∧ c ≠ '0' then some (.operator c, rest)
      else if ['w', 'W', 's', 'S', 'b', 'B', '<', '>'].contains c then some (.operator c, rest)
      else some (.plain c, rest)
  | '[' :: rest =>
      match CharSet.at? ['^'] rest with
      | some (found, after) => some (.set found, after)
      | none => some (.wrong "Unmatched [, [^, [:, [., or [=", [])
  | c :: rest =>
      if c = '*' ∨ c = '.' ∨ c = '^' ∨ c = '$' then some (.operator c, rest)
      else if extended ∧ ['(', ')', '|', '+', '?'].contains c then some (.operator c, rest)
      else if extended ∧ c = '\x7b' then
        match boundsAt true rest with
        | some found => some found
        | none => some (.plain c, rest)
      else some (.plain c, rest)

/-- The tokens of an expression; `fuel` bounds their number. -/
def tokens (extended : Bool) (fuel : Nat) (chars : List Char) : List Token :=
  match fuel with
  | 0 => []
  | n + 1 =>
      match tokenAt extended chars with
      | none => []
      | some (token, rest) => token :: tokens extended n rest

/-- A group that is being read: the branches before and the parts of the branch that is open, the
latest first. -/
structure Frame where
  number : Nat
  branches : List Regex
  parts : List Regex

def branch (parts : List Regex) : Regex := parts.foldl (fun after part => .seq part after) .empty

def Frame.close (f : Frame) : Regex :=
  f.branches.foldl (fun after b => .either b after) (branch f.parts)

/-- An expression that is read up to some token. -/
structure Reading where
  frame : Frame
  outer : List Frame
  groups : Nat
  error : Option String

namespace Reading

def add (r : Reading) (part : Regex) : Reading :=
  { r with frame := { r.frame with parts := part :: r.frame.parts } }

/-- Repeats the last part; where there is none, a star stands for itself. -/
def repeatLast (extended : Bool) (r : Reading) (least : Nat) (most : Option Nat) (sign : Char) :
    Reading :=
  match r.frame.parts with
  | [] => if extended then r else r.add (.char sign)
  | .lineStart :: _ => if extended then r else r.add (.char sign)
  | part :: rest =>
      { r with frame := { r.frame with parts := .repeated part least most :: rest } }

/-- A set of the characters of words or of blanks. -/
def letters (negated : Bool) : Regex := .set ⟨negated, [.named "alnum", .range '_' '_']⟩

/-- Reads an operator; `last` says whether no branch goes on after it. -/
def operator (extended last : Bool) (r : Reading) (c : Char) : Reading :=
  match c with
  | '*' => repeatLast extended r 0 none '*'
  | '+' => repeatLast extended r 1 none '+'
  | '?' => repeatLast extended r 0 (some 1) '?'
  | '.' => r.add .any
  | '^' => if extended ∨ r.frame.parts.isEmpty then r.add .lineStart else r.add (.char '^')
  | '$' => if extended ∨ last then r.add .lineEnd else r.add (.char '$')
  | '(' =>
      { r with
        frame := ⟨r.groups + 1, [], []⟩
        outer := r.frame :: r.outer
        groups := r.groups + 1 }
  | ')' =>
      match r.outer with
      | [] => if extended then r.add (.char ')') else { r with error := some "Unmatched ) or \\)" }
      | frame :: rest =>
          { r with
            frame := { frame with parts := .group r.frame.number r.frame.close :: frame.parts }
            outer := rest }
  | '|' =>
      { r with frame := { r.frame with
          branches := branch r.frame.parts :: r.frame.branches
          parts := [] } }
  | 'w' => r.add (letters false)
  | 'W' => r.add (letters true)
  | 's' => r.add (.set ⟨false, [.named "space"]⟩)
  | 'S' => r.add (.set ⟨true, [.named "space"]⟩)
  | 'b' => r.add (.border false)
  | 'B' => r.add (.border true)
  | '<' => r.add .wordStart
  | '>' => r.add .wordEnd
  | _ =>
      let n := c.toNat - '0'.toNat
      if n ≤ r.groups then r.add (.same n) else { r with error := some "Invalid back reference" }

/-- Reads one token; `next` is the one after it. -/
def step (extended : Bool) (r : Reading) (token : Token) (next : Option Token) : Reading :=
  match token with
  | .plain c => r.add (.char c)
  | .set found => r.add (.set found)
  | .bounds least most => repeatLast extended r least most '\x7b'
  | .wrong message => if r.error.isSome then r else { r with error := some message }
  | .operator c =>
      let last := match next with
        | none => true
        | some (.operator d) => d = ')' ∨ d = '|'
        | _ => false
      operator extended last r c

def run (extended : Bool) (r : Reading) : List Token → Reading
  | [] => r
  | token :: rest => run extended (r.step extended token rest.head?) rest

end Reading

/-- Reads an expression in the basic or the extended notation. -/
def parse (extended : Bool) (text : String) : Except String Regex :=
  let r := Reading.run extended ⟨⟨0, [], []⟩, [], 0, none⟩
    (tokens extended (text.length + 1) text.toList)
  match r.error, r.outer with
  | some message, _ => .error message
  | none, [] => .ok r.frame.close
  | none, _ => .error "Unmatched ( or \\("

/-! ## Matching -/

/-- A place in a line: the characters before it, the nearest first, and those after it. -/
structure Spot where
  before : List Char
  after : List Char

/-- A match: where it ends, and what the groups have matched. -/
structure Found where
  spot : Spot
  groups : List (Nat × String)

def isWord (c : Char) : Bool := c.isAlphanum || c == '_'

namespace Spot

def afterWord (s : Spot) : Bool := s.before.head?.any isWord
def beforeWord (s : Spot) : Bool := s.after.head?.any isWord

def next (s : Spot) : Spot :=
  match s.after with
  | [] => s
  | c :: rest => ⟨c :: s.before, rest⟩

/-- The characters between a place and a later one. -/
def upTo (s later : Spot) : String :=
  String.ofList (s.after.take (s.after.length - later.after.length))

end Spot

/-- Of two matches the longer, or the first of two that are equally long. -/
def longer (a b : Option Found) : Option Found :=
  match a, b with
  | some x, some y => if y.spot.after.length < x.spot.after.length then some y else some x
  | none, y => y
  | x, none => x

/-- Are two characters the same, perhaps but for their case? -/
def sameChar (fold : Bool) (a b : Char) : Bool := a == b || (fold && a.toLower == b.toLower)

/-- Is a character in a set, perhaps in its other case? -/
def inSet (fold : Bool) (s : CharSet) (c : Char) : Bool :=
  s.contains c || (fold && (s.contains c.toLower || s.contains c.toUpper))

/-- The longest match of an expression from a place on that `go` can continue; `fuel` bounds the
steps on one way. -/
def matchAt (fold : Bool) (fuel : Nat) (r : Regex) (f : Found) (go : Found → Option Found) :
    Option Found :=
  match fuel with
  | 0 => none
  | n + 1 =>
      let one (fits : Char → Bool) : Option Found :=
        if f.spot.after.head?.any fits then go { f with spot := f.spot.next } else none
      let when (holds : Bool) : Option Found := if holds then go f else none
      match r with
      | .empty => go f
      | .char c => one (sameChar fold c)
      | .any => one fun _ => true
      | .set s => one (inSet fold s)
      | .lineStart => when f.spot.before.isEmpty
      | .lineEnd => when f.spot.after.isEmpty
      | .border negated => when ((f.spot.afterWord != f.spot.beforeWord) != negated)
      | .wordStart => when (!f.spot.afterWord && f.spot.beforeWord)
      | .wordEnd => when (f.spot.afterWord && !f.spot.beforeWord)
      | .seq a b => matchAt fold n a f fun g => matchAt fold n b g go
      | .either a b => longer (matchAt fold n a f go) (matchAt fold n b f go)
      | .repeated body least most =>
          let more : Option Found :=
            if most = some 0 then none
            else
              matchAt fold n body f fun g =>
                if g.spot.after.length = f.spot.after.length ∧ least = 0 then none
                else matchAt fold n (.repeated body (least - 1) (most.map (· - 1))) g go
          match more with
          | some found => some found
          | none => if least = 0 then go f else none
      | .group number body =>
          matchAt fold n body f fun g =>
            go { g with groups := (number, f.spot.upTo g.spot)
              :: g.groups.filter (·.1 != number) }
      | .same number =>
          match f.groups.lookup number with
          | none => none
          | some text =>
              if text.toList.isPrefixOf f.spot.after then
                go { f with spot := (List.range text.length).foldl (fun s _ => s.next) f.spot }
              else none

/-- A match in a line: where it starts and ends, and what the groups have matched. -/
structure Match where
  start : Spot
  stop : Spot
  groups : List (Nat × String)

def Match.text (m : Match) : String := m.start.upTo m.stop

def findFrom? (r : Regex) (fold : Bool) (tries : Nat) (s : Spot) : Option Match :=
  match tries with
  | 0 => none
  | n + 1 =>
      match matchAt fold (4000 + 8 * s.after.length) r ⟨s, []⟩ some with
      | some found => some ⟨s, found.spot, found.groups⟩
      | none => if s.after.isEmpty then none else findFrom? r fold n s.next

def find? (r : Regex) (fold : Bool) (line : String) : Option Match :=
  findFrom? r fold (line.length + 1) ⟨[], line.toList⟩

end Regex

end PinnedStack
