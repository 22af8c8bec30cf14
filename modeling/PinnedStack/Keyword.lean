/-!
# Keywords

* `Keyword` — the fourteen words with a fixed role in the grammar.
* `Keyword.text` / `Keyword.ofText?` — their spelling, both ways; `ofText?_text` says they agree.
-/

namespace PinnedStack

/-- A word with a fixed role in the grammar. `dashes` stands between the inputs and the outputs of a
signature, `otherwise` opens the arm taken on zero, `body` stands between the condition and the body
of a loop, and `within` ends the names of a `bind`. -/
inductive Keyword where
  | colon
  | semicolon
  | openParen
  | closeParen
  | dashes
  | branch
  | otherwise
  | loop
  | body
  | bind
  | within
  | record
  | constant
  | memory
deriving DecidableEq, Inhabited

namespace Keyword

/-- How a keyword is spelled. -/
def text : Keyword → String
  | colon => ":"
  | semicolon => ";"
  | openParen => "("
  | closeParen => ")"
  | dashes => "--"
  | branch => "if"
  | otherwise => "else"
  | loop => "loop"
  | body => "do"
  | bind => "bind"
  | within => "in"
  | record => "struct"
  | constant => "const"
  | memory => "memory"

def all : List Keyword :=
  [colon, semicolon, openParen, closeParen, dashes, branch, otherwise, loop, body, bind, within,
    record, constant, memory]

def ofText? (word : String) : Option Keyword := all.find? (·.text == word)

theorem mem_all (k : Keyword) : k ∈ all := by cases k <;> decide

theorem ofText?_text (k : Keyword) : ofText? k.text = some k := by cases k <;> decide

theorem text_of_ofText? {word : String} {k : Keyword} (h : ofText? word = some k) :
    k.text = word := by
  simpa using List.find?_some h

end Keyword

end PinnedStack
