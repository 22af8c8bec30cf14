import PinnedStack.Host.Shell.Expansion
import PinnedStack.Host.Tool.Test

/-!
# Conditions between double brackets

* `Condition` — a condition. `Condition.parse?` — the condition that words are.
* `Condition.holds` — is it true?
-/

namespace PinnedStack.Shell

inductive Condition where
  | word (w : Word)
  | unary (letter : Char) (w : Word)
  | binary (operator : String) (a b : Word)
  | denied (c : Condition)
  | both (a b : Condition)
  | either (a b : Condition)

namespace Condition

def operators : List String :=
  ["=", "==", "!=", "=~", "<", ">", "-eq", "-ne", "-lt", "-le", "-gt", "-ge", "-nt", "-ot", "-ef"]

/-- The letter of an operator in front of a word. -/
def letter? (w : Word) : Option Char :=
  match (Word.plain? w).map String.toList with
  | some ['-', c] => if "abcdefghknoprstuvwxzGLNORS".toList.contains c then some c else none
  | _ => none

/-- A condition at the start of some words, and those after it. -/
abbrev Parsed := Option (Condition × List Word)

/-- Reads a condition without connectives; `whole` reads what stands in parentheses. -/
def primary (whole : List Word → Parsed) (fuel : Nat) (ws : List Word) : Parsed :=
  let single : Parsed :=
    match ws with
    | [] => none
    | w :: rest =>
        match rest with
        | o :: b :: after =>
            match (Word.plain? o).filter operators.contains with
            | some operator => some (.binary operator w b, after)
            | none => some (.word w, rest)
        | _ => some (.word w, rest)
  match fuel, ws with
  | n + 1, w :: rest =>
      match Word.plain? w with
      | some "!" => (primary whole n rest).map fun (c, after) => (.denied c, after)
      | some "(" =>
          match whole rest with
          | some (c, close :: after) =>
              if Word.plain? close = some ")" then some (c, after) else none
          | _ => none
      | _ =>
          match letter? w, rest with
          | some c, b :: after =>
              let next := (after.head?.bind Word.plain?).getD ""
              let isOperand := !after.isEmpty && next != "&&" && next != "||"
              if (Word.plain? b).any operators.contains && isOperand then single
              else some (.unary c b, after)
          | _, _ => single
  | _, _ => single

/-- Reads conditions between connectives of one kind. -/
def chain (one : List Word → Parsed) (connective : String)
    (combine : Condition → Condition → Condition) (fuel : Nat) (ws : List Word) : Parsed :=
  match one ws with
  | none => none
  | some (c, rest) =>
      match fuel, rest with
      | n + 1, w :: after =>
          if Word.plain? w = some connective then
            (chain one connective combine n after).map fun (d, rest) => (combine c d, rest)
          else some (c, rest)
      | _, _ => some (c, rest)

def whole (fuel : Nat) (ws : List Word) : Parsed :=
  match fuel with
  | 0 => none
  | n + 1 =>
      let one := primary (whole n) (n + 1)
      chain (chain one "&&" .both n) "||" .either n ws

def parse? (ws : List Word) : Option Condition :=
  match whole (ws.length + 1) ws with
  | some (c, []) => some c
  | _ => none

/-- The answer of a test, where a failure is a complaint. -/
def ask (words : List String) : Act Bool := do
  match Test.run (← get).disk words with
  | .ok answer => return answer
  | .error message => Act.fail message

def holds (i : Inner) : Condition → Act Bool
  | .word w => return (← Act.text i w) ≠ ""
  | .unary letter w => do
      let text ← Act.text i w
      if letter = 'v' then return ((← get).get? text).isSome
      else ask [String.ofList ['-', letter], text]
  | .binary operator a b => do
      let left ← Act.text i a
      if operator = "=" ∨ operator = "==" then
        return Pattern.isMatch (← Act.pattern i b) left.toList
      else if operator = "!=" then
        return !Pattern.isMatch (← Act.pattern i b) left.toList
      else
        let right ← Act.text i b
        if operator = "=~" then
          match Regex.parse true right with
          | .ok r => return (r.find? false left).isSome
          | .error _ => return false
        else if operator = "<" then return utf8Bytes left < utf8Bytes right
        else if operator = ">" then return utf8Bytes right < utf8Bytes left
        else if ["-nt", "-ot", "-ef"].contains operator then ask [left, operator, right]
        else ask [toString (← Arith.evaluate left), operator, toString (← Arith.evaluate right)]
  | .denied c => return !(← holds i c)
  | .both a b => do
      if ← holds i a then holds i b else return false
  | .either a b => do
      if ← holds i a then return true else holds i b

end Condition

end PinnedStack.Shell
