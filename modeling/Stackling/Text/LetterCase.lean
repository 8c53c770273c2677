import Stackling.Bytes

/-!
# Letter case

Keywords, settings and file suffixes are words of ASCII letters that are
compared without regard to case. A few characters outside ASCII have an ASCII
letter as their capital or small form, and they count as that letter: the long
s and the dotless i among the capitals, the dotted capital I and the Kelvin
sign among the small letters. No other character can be part of such a word, so
all others are kept.
-/

namespace Stackling.LetterCase

/-- The capital of an ASCII letter; other bytes are kept. -/
def upperByte (b : UInt8) : UInt8 := if 97 ≤ b && b ≤ 122 then b - 32 else b

/-- The small form of an ASCII letter; other bytes are kept. -/
def lowerByte (b : UInt8) : UInt8 := if 65 ≤ b && b ≤ 90 then b + 32 else b

/-- A word in capitals, as far as they are ASCII letters. -/
def upper : Bytes → Bytes
  | [] => []
  | [a] => [upperByte a]
  | a :: b :: s =>
    if a == 0xC5 && b == 0xBF then 83 :: upper s
    else if a == 0xC4 && b == 0xB1 then 73 :: upper s
    else upperByte a :: upper (b :: s)

/-- A word in small letters, as far as they are ASCII letters. -/
def lower : Bytes → Bytes
  | [] => []
  | [a] => [lowerByte a]
  | [a, b] => if a == 0xC4 && b == 0xB0 then [105] else [lowerByte a, lowerByte b]
  | a :: b :: c :: s =>
    if a == 0xC4 && b == 0xB0 then 105 :: lower (c :: s)
    else if a == 0xE2 && b == 0x84 && c == 0xAA then 107 :: lower s
    else lowerByte a :: lower (b :: c :: s)

end Stackling.LetterCase
