import Stackling.Input
import Stackling.Text.Utf8
import Stackling.Yaml.Problem

/-!
# The characters of a text

A text comes as bytes in UTF-8 or, if it starts with the mark for it, in UTF-16.
It is decoded a block at a time. A character that is not allowed spoils its
whole block; one that is cut off by the end of the text only shows when the text
is read that far.
-/

namespace Stackling.Yaml

/-- The characters of a text. -/
structure Source where
  chars : List Char
  /-- What is found wrong when more characters are asked for than there are. -/
  fault : Option Problem := none
  deriving DecidableEq, Repr

namespace Source

/-- What the next bytes stand for. -/
inductive Decoded where
  /-- A scalar value and how many bytes spell it. -/
  | scalar (code width : Nat)
  /-- The bytes end before the character does. -/
  | cut (problem : Problem)
  | bad (problem : Problem)

/-- How many bytes a spelling in UTF-8 has by its first one. -/
def widthOf (a : UInt8) : Option Nat :=
  if a < 0x80 then some 1
  else if 0xC0 ≤ a && a < 0xE0 then some 2
  else if 0xE0 ≤ a && a < 0xF0 then some 3
  else if 0xF0 ≤ a && a < 0xF8 then some 4
  else none

/-- The least scalar value that needs a spelling of the given width. -/
def leastOf (width : Nat) : Nat :=
  if width = 4 then 0x10000 else if width = 3 then 0x800 else if width = 2 then 0x80 else 0

/-- Decode a character of UTF-8 whose first byte is `a`. -/
def utf8 (a : UInt8) (s : Bytes) : Decoded :=
  match widthOf a with
  | none => .bad .leadingOctet
  | some width =>
    let more := s.take (width - 1)
    if more.length + 1 < width then .cut .incompleteOctets
    else if more.any (!Utf8.isContinuation ·) then .bad .trailingOctet
    else
      let lead := if width = 1 then a.toNat else a.toNat % (128 >>> width)
      let code := more.foldl (fun n b => n * 64 + Utf8.payload b) lead
      if code < leastOf width then .bad .octetCount
      else if Utf8.isScalar code then .scalar code width
      else .bad .invalidCharacter

/-- A unit of UTF-16. -/
def unit (bigEndian : Bool) (a b : UInt8) : Nat :=
  if bigEndian then a.toNat * 256 + b.toNat else b.toNat * 256 + a.toNat

/-- Decode a character of UTF-16 whose first byte is `a`. -/
def utf16 (bigEndian : Bool) (a : UInt8) (s : Bytes) : Decoded :=
  match s with
  | [] => .cut .incompleteUnit
  | b :: s =>
    let first := unit bigEndian a b
    if 0xDC00 ≤ first && first ≤ 0xDFFF then .bad .strayLowSurrogate
    else if 0xD800 ≤ first && first ≤ 0xDBFF then
      match s with
      | c :: d :: _ =>
        let second := unit bigEndian c d
        if 0xDC00 ≤ second && second ≤ 0xDFFF then
          .scalar (0x10000 + (first - 0xD800) * 0x400 + (second - 0xDC00)) 4
        else .bad .missingLowSurrogate
      | _ => .cut .incompletePair
    else .scalar first 2

/-- Whether a scalar value may stand in a text. -/
def isAllowed (code : Nat) : Bool :=
  code = 0x09 || code = 0x0A || code = 0x0D || (0x20 ≤ code && code ≤ 0x7E) || code = 0x85
    || (0xA0 ≤ code && code ≤ 0xFFFD) || 0x10000 ≤ code

/-- How many bytes make a block. -/
def blockSize : Nat := 512

/-- Decode a text after passing over `skip` bytes. The current block still has
`room` bytes; `block` holds its characters and `done` those of the blocks
before, both with the last character first. -/
def decodeFrom (decode : UInt8 → Bytes → Decoded) (ending : Option Problem) :
    Nat → Nat → List Char → List Char → Bytes → Source
  | _, _, block, done, [] => { chars := (block ++ done).reverse, fault := ending }
  | skip + 1, room, block, done, _ :: s => decodeFrom decode ending skip room block done s
  | 0, room, block, done, a :: s =>
    match decode a s with
    | .cut problem => { chars := (block ++ done).reverse, fault := ending.getD problem }
    | .bad problem => { chars := done.reverse, fault := problem }
    | .scalar code width =>
      let (room, block, done) :=
        if room < width then (blockSize, [], block ++ done) else (room, block, done)
      if isAllowed code then
        decodeFrom decode ending (width - 1) (room - width) (Char.ofNat code :: block) done s
      else { chars := done.reverse, fault := some .controlCharacter }

/-- The characters of an input. -/
def ofInput (input : Input) : Source :=
  let ending := input.failure.map Problem.input
  match input.unread with
  | 0xFF :: 0xFE :: s => decodeFrom (utf16 false) ending 0 (blockSize - 2) [] [] s
  | 0xFE :: 0xFF :: s => decodeFrom (utf16 true) ending 0 (blockSize - 2) [] [] s
  | 0xEF :: 0xBB :: 0xBF :: s => decodeFrom utf8 ending 0 (blockSize - 3) [] [] s
  | s => decodeFrom utf8 ending 0 blockSize [] [] s

end Source

end Stackling.Yaml
