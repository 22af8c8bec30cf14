/-!
# Text as bytes

* `utf8Bytes` — the UTF-8 encoding of a text. `ofUtf8?` — the text that bytes encode.
* `ofUtf8Lossy` — reads bytes that may encode no text.
-/

namespace PinnedStack

/-- The UTF-8 encoding of a text. -/
def utf8Bytes (text : String) : List UInt8 := text.toUTF8.data.toList

/-- The text that bytes encode. -/
def ofUtf8? (bytes : List UInt8) : Option String := String.fromUTF8? ⟨bytes.toArray⟩

theorem ofUtf8?_utf8Bytes (text : String) : ofUtf8? (utf8Bytes text) = some text := by
  have valid : (⟨text.toUTF8.data.toList.toArray⟩ : ByteArray) = text.toByteArray := rfl
  simp only [ofUtf8?, utf8Bytes, String.fromUTF8?, valid, dif_pos text.isValidUTF8]
  rfl

/-- The first character that bytes encode, by the length of its encoding. -/
def firstChar? (bytes : List UInt8) : Option (Nat × String) :=
  [1, 2, 3, 4].findSome? fun n =>
    if bytes.length < n then none else (ofUtf8? (bytes.take n)).map fun s => (n, s)

/-- Does a byte go on with a character? -/
def isContinuation (b : UInt8) : Bool := 0x80 ≤ b && b ≤ 0xbf

/-- The least and the greatest byte that may stand second in a character of three or four bytes, and
how many bytes follow it. -/
def secondByte? (lead : UInt8) : Option (UInt8 × UInt8 × Nat) :=
  if lead = 0xe0 then some (0xa0, 0xbf, 1)
  else if lead = 0xed then some (0x80, 0x9f, 1)
  else if 0xe1 ≤ lead ∧ lead ≤ 0xef then some (0x80, 0xbf, 1)
  else if lead = 0xf0 then some (0x90, 0xbf, 2)
  else if lead = 0xf4 then some (0x80, 0x8f, 2)
  else if 0xf1 ≤ lead ∧ lead ≤ 0xf3 then some (0x80, 0xbf, 2)
  else none

/-- How many bytes at the start could have begun a character, where none stands there; at least
one. -/
def brokenSize : List UInt8 → Nat
  | lead :: second :: rest =>
      match secondByte? lead with
      | some (least, greatest, more) =>
          if least ≤ second ∧ second ≤ greatest then
            2 + ((rest.take more).takeWhile isContinuation).length
          else 1
      | none => 1
  | _ => 1

/-- Reads bytes as pieces of text. The bytes that could have begun a character together are read as
one replacement character; `skip` counts the bytes of a piece that was read already. -/
def lossyFrom (skip : Nat) : List UInt8 → List String
  | [] => []
  | b :: rest =>
      match skip with
      | n + 1 => lossyFrom n rest
      | 0 =>
          match firstChar? (b :: rest) with
          | some (n, s) => s :: lossyFrom (n - 1) rest
          | none => "\uFFFD" :: lossyFrom (brokenSize (b :: rest) - 1) rest

/-- The text of bytes, with replacement characters where they encode none. -/
def ofUtf8Lossy (bytes : List UInt8) : String :=
  match ofUtf8? bytes with
  | some text => text
  | none => String.join (lossyFrom 0 bytes)

end PinnedStack
