import PizzaLang.Recipe.Image
import PizzaLang.Text.Blank
import PizzaLang.Text.Decimal
import PizzaLang.Text.Utf8

/-!
# Image files

The size of an image, read from the first bytes of its file. The format is told by a
signature: PNG, GIF, BMP and QOI have the two sides at fixed offsets, and the PNM family
has them in decimal, as the first two words that are not comments.

Words of a PNM file are divided by ASCII white space and written in UTF-8. Other white space
belongs to the word it stands in. A word of nothing else is skipped, and at the ends of a
word it hides neither a comment nor the height; a width that has it is not a number. Words
and comments have to end soon enough.

A side has to fit in 32 bits.
-/

namespace PizzaLang

namespace ImageFile

/-- How far the end of a word or of a comment is looked for, in bytes. -/
def reach : Nat := 1024

/-- Why an image has no size. -/
inductive Fault
  /-- The file ends too early. -/
  | truncated
  /-- The signature is not known. -/
  | unknown
  /-- There are no numbers where the sides should be. -/
  | noDimensions
  /-- A word or a comment does not end soon enough. -/
  | endless
  /-- A word is not UTF-8. -/
  | notText (fault : Text.Utf8Fault)
  | tooWide (width : Nat)
  | tooHigh (height : Nat)
deriving DecidableEq

/-- The text of the fault. -/
def Fault.message : Fault → String
  | truncated => "failed to fill whole buffer"
  | unknown => "Could not decode image"
  | noDimensions => "PNM dimensions not found"
  | endless => s!"Delimiter not found within {reach} bytes"
  | notText fault => fault.message
  | tooWide width => s!"width {width} is too large"
  | tooHigh height => s!"height {height} is too large"

/-! ### Sides at fixed offsets -/

/-- The number that bytes denote, the most significant first. -/
def bigEndian (bytes : List UInt8) : Nat := bytes.foldl (fun n b => 256 * n + b.toNat) 0

/-- The number that bytes denote, the least significant first. -/
def littleEndian (bytes : List UInt8) : Nat := bigEndian bytes.reverse

/-- So many bytes from an offset. -/
def slice (bytes : List UInt8) (offset count : Nat) : Except Fault (List UInt8) :=
  let part := (bytes.drop offset).take count
  if part.length = count then .ok part else .error .truncated

/-- Two numbers of so many bytes, one after the other. -/
def sidesAt (bytes : List UInt8) (offset count : Nat) (read : List UInt8 → Nat) :
    Except Fault ImageSize := do
  let width ← slice bytes offset count
  let height ← slice bytes (offset + count) count
  return ⟨read width, read height⟩

/-! ### Sides in words -/

/-- Is the byte white space? -/
def isBlankByte (b : UInt8) : Bool := b = 9 || b = 10 || b = 12 || b = 13 || b = 32

/-- What follows the byte at a place, if that is within reach. -/
def past (place : Nat) (bytes : List UInt8) : Except Fault (List UInt8) :=
  if reach ≤ place then .error .endless
  else match bytes.drop place with
    | _ :: rest => .ok rest
    | [] => .error .truncated

/-- The bytes of the first word. -/
def wordBytes (bytes : List UInt8) : List UInt8 :=
  (bytes.dropWhile isBlankByte).takeWhile (!isBlankByte ·)

/-- The place where the first word ends. -/
def wordEnd (bytes : List UInt8) : Nat :=
  (bytes.takeWhile isBlankByte).length + (wordBytes bytes).length

/-- The first word, and what follows the blank after it. That blank has to be within reach,
and may not be the last byte that is. -/
def readWord (bytes : List UInt8) : Except Fault (List Char × List UInt8) :=
  match past (wordEnd bytes) bytes with
  | .error fault => .error fault
  | .ok rest =>
    if reach ≤ wordEnd bytes + 1 then .error .endless
    else match Text.decodeUtf8 (wordBytes bytes) with
      | .ok word => .ok (word, rest)
      | .error fault => .error (.notText fault)

/-- What follows the first line feed. -/
def skipLine (bytes : List UInt8) : Except Fault (List UInt8) :=
  past (bytes.takeWhile (· ≠ 10)).length bytes

theorem length_past {place : Nat} {bytes rest : List UInt8} (h : past place bytes = .ok rest) :
    rest.length < bytes.length := by
  unfold past at h
  split at h
  · cases h
  · split at h
    · next heq =>
      cases h
      have := congrArg List.length heq
      rw [List.length_drop, List.length_cons] at this
      omega
    · cases h

theorem length_readWord {bytes rest : List UInt8} {word : List Char}
    (h : readWord bytes = .ok (word, rest)) : rest.length < bytes.length := by
  unfold readWord at h
  split at h
  · cases h
  · next hp =>
    split at h
    · cases h
    · split at h
      · cases h
        exact length_past hp
      · cases h

/-- Two to the power of 64: sides in words are below it. -/
def wordBound : Nat := 18446744073709551616

/-- A side as a word gives it. -/
def readSide (word : List Char) : Option Nat :=
  (Text.natural? (String.ofList word)).filter (· < wordBound)

/-- The sides in the first two words that are not blank or in a comment. A word that starts a
comment hides the line after the blank that ends the word. -/
def sidesInWords (bytes : List UInt8) : Except Fault ImageSize :=
  match h : readWord bytes with
  | .error fault => .error fault
  | .ok (first, rest) =>
    have := length_readWord h
    match Text.trim first with
    | [] => sidesInWords rest
    | '#' :: _ =>
      match h' : skipLine rest with
      | .error fault => .error fault
      | .ok later =>
        have := length_past h'
        sidesInWords later
    | _ => do
      let (second, _) ← readWord rest
      match readSide first, readSide (Text.trim second) with
      | some width, some height => .ok ⟨width, height⟩
      | _, _ => .error .noDimensions
termination_by bytes.length

/-! ### Formats -/

/-- The sides, by the signature. -/
def sides (bytes : List UInt8) : Except Fault ImageSize :=
  match bytes with
  | 0x89 :: 0x50 :: 0x4E :: 0x47 :: _ => sidesAt bytes 16 4 bigEndian
  | 0x47 :: 0x49 :: 0x46 :: 0x38 :: _ => sidesAt bytes 6 2 littleEndian
  | 0x71 :: 0x6F :: 0x69 :: 0x66 :: _ => sidesAt bytes 4 4 bigEndian
  | 0x42 :: 0x4D :: _ => sidesAt bytes 18 4 littleEndian
  | 0x50 :: digit :: rest =>
    if 0x31 ≤ digit ∧ digit ≤ 0x36 then sidesInWords rest else .error .unknown
  | _ => .error .unknown

/-- **The size of an image**, given the bytes of its file. -/
def size (content : ByteArray) : Except Fault ImageSize := do
  if content.size < 12 then .error .truncated
  else
    let size ← sides content.toList
    if ImageSize.sideBound ≤ size.width then .error (.tooWide size.width)
    else if ImageSize.sideBound ≤ size.height then .error (.tooHigh size.height)
    else return size

end ImageFile

end PizzaLang
