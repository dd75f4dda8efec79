/-!
# UTF-8

Characters written as one to four bytes. The first byte of a character tells how many bytes
follow it and which range the first of these lies in; the ranges leave out the characters
that fewer bytes would do for, the surrogates and what lies beyond the last code point. The
other bytes lie between `0x80` and `0xBF`.

`decodeUtf8` reads bytes from the front and stops at the first character that is not well
formed, of which it tells the place and how many of its bytes were in order.
-/

namespace PizzaLang.Text

/-- Where bytes stop being UTF-8. -/
inductive Utf8Fault
  /-- After so many bytes of the character at a place comes a byte that cannot stand there;
  a byte that starts no character counts itself. -/
  | malformed (length place : Nat)
  /-- The bytes end inside the character at a place. -/
  | incomplete (place : Nat)
deriving DecidableEq

/-- The text of the fault. -/
def Utf8Fault.message : Utf8Fault → String
  | malformed length place => s!"invalid utf-8 sequence of {length} bytes from index {place}"
  | incomplete place => s!"incomplete utf-8 byte sequence from index {place}"

/-- A character of which some bytes have been read. -/
structure Utf8Part where
  /-- What the bytes so far contribute to the code point. -/
  value : Nat
  /-- How many bytes have been read. -/
  length : Nat
  /-- How many bytes come after the next one. -/
  further : Nat
  /-- The least value of the next byte. -/
  low : UInt8
  /-- The greatest value of the next byte. -/
  high : UInt8

/-- The character that a byte starts, where it does not stand for one by itself. -/
def Utf8Part.start? (b : UInt8) : Option Utf8Part :=
  if b < 0xC2 then none
  else if b < 0xE0 then some ⟨b.toNat - 0xC0, 1, 0, 0x80, 0xBF⟩
  else if b < 0xF0 then
    some ⟨b.toNat - 0xE0, 1, 1, if b = 0xE0 then 0xA0 else 0x80, if b = 0xED then 0x9F else 0xBF⟩
  else if b < 0xF5 then
    some ⟨b.toNat - 0xF0, 1, 2, if b = 0xF0 then 0x90 else 0x80, if b = 0xF4 then 0x8F else 0xBF⟩
  else none

/-- The code point after one more byte. -/
def Utf8Part.extend (part : Utf8Part) (b : UInt8) : Nat := 64 * part.value + (b.toNat - 0x80)

/-- The characters of the bytes that follow, where `part` is what has been read of the
character that starts at `place`. -/
def decodeUtf8From (place : Nat) : Option Utf8Part → List UInt8 → Except Utf8Fault (List Char)
  | none, [] => .ok []
  | some _, [] => .error (.incomplete place)
  | none, b :: rest =>
    if b < 0x80 then
      (decodeUtf8From (place + 1) none rest).map (Char.ofNat b.toNat :: ·)
    else match Utf8Part.start? b with
      | some part => decodeUtf8From place (some part) rest
      | none => .error (.malformed 1 place)
  | some part, b :: rest =>
    if part.low ≤ b ∧ b ≤ part.high then
      match part.further with
      | 0 =>
        (decodeUtf8From (place + part.length + 1) none rest).map
          (Char.ofNat (part.extend b) :: ·)
      | further + 1 =>
        decodeUtf8From place (some ⟨part.extend b, part.length + 1, further, 0x80, 0xBF⟩) rest
    else .error (.malformed part.length place)

/-- **The characters that bytes stand for.** -/
def decodeUtf8 (bytes : List UInt8) : Except Utf8Fault (List Char) := decodeUtf8From 0 none bytes

end PizzaLang.Text
