/-!
# Shell scripts as data

* `Piece` — a part of a word: text, or something that is replaced when the word is expanded.
* `Use` — what becomes of the value of a parameter.
* `Redirection`, `Command` — what a script does.
-/

namespace PinnedStack.Shell

/-- Which part of a value a pattern takes away. -/
inductive Trim where
  | shortestEnd
  | longestEnd
  | shortestStart
  | longestStart
deriving DecidableEq

/-- Which matches of a pattern in a value are replaced. -/
inductive Replaced where
  | first
  | every
  | atStart
  | atEnd
deriving DecidableEq

/-- Why commands are joined in a list: each runs, or only after a success or a failure. -/
inductive Link where
  | always
  | onSuccess
  | onFailure
deriving DecidableEq

/-- Where a redirection takes its end from. `overwrite` replaces a file also where files are to be
spared, `copyIn` and `copyOut` copy another descriptor, and `outputs` sends both outputs into a
file. -/
inductive Direction where
  | read
  | write
  | overwrite
  | append
  | both
  | copyIn
  | copyOut
  | outputs
  | appendOutputs
deriving DecidableEq

mutual

/-- A part of a word. What is quoted is not split and is no pattern. -/
inductive Piece where
  | text (text : String) (quoted : Bool)
  | parameter (name : String) (use : Use) (quoted : Bool)
  | output (commands : List Command) (quoted : Bool)
  | arithmetic (expression : List Piece) (quoted : Bool)

/-- What becomes of the value of a parameter. A flag says whether an empty value counts as none, and
`wrong` is a notation without a meaning. -/
inductive Use where
  | value
  | length
  | orElse (ifEmpty : Bool) (word : List Piece)
  | assign (ifEmpty : Bool) (word : List Piece)
  | demand (ifEmpty : Bool) (word : List Piece)
  | instead (ifEmpty : Bool) (word : List Piece)
  | trim (trim : Trim) (pattern : List Piece)
  | replace (replaced : Replaced) (pattern word : List Piece)
  | part (start : List Piece) (length : Option (List Piece))
  | wrong

/-- A redirection of a descriptor, to a file or from a text that stands in the script. -/
inductive Redirection where
  | file (descriptor : Nat) (direction : Direction) (word : List Piece)
  | here (descriptor : Nat) (text : List Piece)

inductive Command where
  | simple (line : Nat) (bindings : List (String × List Piece)) (words : List (List Piece))
      (redirections : List Redirection)
  | pipeline (commands : List Command)
  | denied (command : Command)
  | joined (link : Link) (first second : Command)
  | background (command : Command)
  | group (body : List Command)
  | subshell (line : Nat) (body : List Command)
  | choice (test yes : List Command) (no : List Command)
  | loop (untilDone : Bool) (test body : List Command)
  | each (line : Nat) (name : String) (words : Option (List (List Piece))) (body : List Command)
  | select (line : Nat) (word : List Piece) (branches : List (List (List Piece) × List Command))
  | function (name : String) (body : Command)
  | redirected (line : Nat) (command : Command) (redirections : List Redirection)
  | condition (line : Nat) (words : List (List Piece))
  | compute (line : Nat) (expression : List Piece)

end

abbrev Word := List Piece

/-- The text of a word that is nothing but text without quotes. -/
def Word.plain? : Word → Option String
  | [] => some ""
  | .text text false :: rest => (plain? rest).map (text ++ ·)
  | _ => none

end PinnedStack.Shell
