import PinnedStack.Fault
import PinnedStack.Utf8

/-!
# Tokens

* `Token` — a word or literal of the source with its spelling and its place.
* `Scanned` — the tokens of a text and the place where it ends.
-/

namespace PinnedStack

/-- What a token is. A literal has its escapes expanded; a `cstr` is stored with a zero after it. -/
inductive Token.Kind where
  | int (value : Int64)
  | str (text : String)
  | cstr (text : String)
  | keyword (keyword : Keyword)
  | word
deriving DecidableEq

/-- A piece of the source at the place of its first character. The lexeme is a word as it is
written, or a literal between its quotes with its escapes expanded. -/
structure Token where
  kind : Token.Kind
  lexeme : String
  place : Place
deriving DecidableEq

/-- The tokens of a text, and its end. -/
structure Scanned where
  tokens : List Token
  stop : Place
deriving DecidableEq

/-- Where reading starts: the first token, or the end of a text without tokens. -/
def Scanned.start (s : Scanned) : Place :=
  match s.tokens with
  | t :: _ => t.place
  | [] => s.stop

end PinnedStack
