import PinnedStack.Host.NumberText

/-!
# Permissions of files

* `Permission.change?` — reads a mode, which changes permission bits.
* `Permission.text` — the letters of permission bits.
-/

namespace PinnedStack

namespace Permission

/-- What a clause of a mode does to permission bits: for whom, how, and which bits. `masked` spares
what the mask denies, `search` means execution only of directories and of what can be run already,
and `source` is the class whose bits are taken over. -/
structure Clause where
  who : Nat
  masked : Bool
  sign : Char
  bits : Nat
  search : Bool
  source : Option Char

/-- The bits of a letter for all three classes. -/
def bits? (c : Char) : Option Nat :=
  [('r', 0o444), ('w', 0o222), ('x', 0o111), ('X', 0), ('s', 0o6000), ('t', 0o1000)].lookup c

def class? (c : Char) : Option Nat :=
  [('u', 0o4700), ('g', 0o2070), ('o', 0o1007), ('a', 0o7777)].lookup c

/-- Reads the clauses of one part of a mode: classes, then signs with letters. -/
def clauses? (fuel who : Nat) (masked : Bool) (chars : List Char) : Option (List Clause) :=
  match fuel, chars with
  | _, [] => some []
  | 0, _ => none
  | n + 1, sign :: rest =>
      if sign = '+' ∨ sign = '-' ∨ sign = '=' then
        let letters := rest.takeWhile fun c => c != '+' && c != '-' && c != '='
        let source := if letters.length = 1 then letters.find? ['u', 'g', 'o'].contains else none
        match (if source.isSome then [] else letters).mapM bits? with
        | none => none
        | some bits =>
            let all := bits.foldl (· ||| ·) 0
            let clause : Clause := ⟨who, masked, sign, all, letters.contains 'X', source⟩
            (clauses? n who masked (rest.drop letters.length)).map (clause :: ·)
      else none

/-- Reads a mode: octal digits, or clauses with commas between them. -/
def change? (mask : Nat) (mode : String) : Option (Bool → Nat → Nat) :=
  let chars := mode.toList
  if !chars.isEmpty ∧ chars.all (NumberText.isDigit 8) ∧ NumberText.value 8 chars ≤ 0o7777 then
    some fun _ _ => NumberText.value 8 chars
  else
    let part (text : String) : Option (List Clause) :=
      let whom := text.toList.takeWhile fun c => (class? c).isSome
      let who := whom.foldl (fun n c => n ||| (class? c).getD 0) 0
      let rest := text.toList.drop whom.length
      if rest.isEmpty then none
      else clauses? rest.length (if whom.isEmpty then 0o7777 else who) whom.isEmpty rest
    ((mode.splitOn ",").mapM part).map fun parts directory old =>
      parts.flatten.foldl (fun old c =>
        let copied := match c.source with
          | some 'u' => old / 64 % 8 * 0o111
          | some 'g' => old / 8 % 8 * 0o111
          | some _ => old % 8 * 0o111
          | none => c.bits
        let found := copied ||| (if c.search ∧ (directory ∨ old &&& 0o111 ≠ 0) then 0o111 else 0)
        let wanted := found &&& c.who
        let value := if c.masked then wanted - (wanted &&& mask) else wanted
        if c.sign = '+' then old ||| value
        else if c.sign = '-' then old - (old &&& value)
        else (old - (old &&& c.who)) ||| value) old

def text (mode : Nat) : String :=
  let letters (bits : Nat) : String :=
    (if bits &&& 4 ≠ 0 then "r" else "-") ++ (if bits &&& 2 ≠ 0 then "w" else "-")
      ++ (if bits &&& 1 ≠ 0 then "x" else "-")
  letters (mode / 64 % 8) ++ letters (mode / 8 % 8) ++ letters (mode % 8)

end Permission

end PinnedStack
