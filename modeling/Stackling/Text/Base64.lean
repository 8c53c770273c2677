import Stackling.Bytes

/-!
# Base 64

Bytes written six bits at a time. A text is made of groups of four characters;
the last group may end in one or two equals signs, which stand for bytes that
are not there. Line breaks do not count.
-/

namespace Stackling.Base64

/-- The six bits that a character stands for. -/
def value? (b : UInt8) : Option Nat :=
  if 65 ≤ b && b ≤ 90 then some (b.toNat - 65)
  else if 97 ≤ b && b ≤ 122 then some (b.toNat - 71)
  else if Bytes.isDigit b then some (b.toNat + 4)
  else if b = 43 then some 62
  else if b = 47 then some 63
  else none

/-- The bytes of groups of characters. Bits that no byte needs do not count. -/
def groups : Bytes → Option Bytes
  | [] => some []
  | a :: b :: c :: d :: rest => do
    let x := (← value? a) * 64 + (← value? b)
    if rest = [] ∧ d = 61 then
      if c = 61 then return [UInt8.ofNat (x / 16)]
      else
        let y := x * 64 + (← value? c)
        return [UInt8.ofNat (y / 1024), UInt8.ofNat (y / 4)]
    else
      let y := (x * 64 + (← value? c)) * 64 + (← value? d)
      return UInt8.ofNat (y / 65536) :: UInt8.ofNat (y / 256) :: UInt8.ofNat y :: (← groups rest)
  | _ => none

/-- The bytes that a text stands for. -/
def decode (text : Bytes) : Option Bytes := groups (text.filter fun b => b ≠ 10 && b ≠ 13)

end Stackling.Base64
