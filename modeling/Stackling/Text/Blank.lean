import Stackling.Text.Utf8

/-!
# Blank text

Unicode white space at the ends of a text, and the words between white space.
White space is spelled by one, two or three bytes. A spelling is recognised at
either end of a text, so trimming never cuts a character in two.
-/

namespace Stackling.Blank

/-- White space that is spelled by one byte. -/
def one (a : UInt8) : Bool := Bytes.isSpace a

/-- White space that is spelled by two bytes: next line and no-break space. -/
def two (a b : UInt8) : Bool := a == 0xC2 && (b == 0x85 || b == 0xA0)

/-- White space that is spelled by three bytes: the ogham space, the spaces
and separators of the general punctuation block, and the ideographic space. -/
def three (a b c : UInt8) : Bool :=
  (a == 0xE1 && b == 0x9A && c == 0x80)
    || (a == 0xE2 && b == 0x80 && ((0x80 ≤ c && c ≤ 0x8A) || c == 0xA8 || c == 0xA9 || c == 0xAF))
    || (a == 0xE2 && b == 0x81 && c == 0x9F)
    || (a == 0xE3 && b == 0x80 && c == 0x80)

/-- Whether a rune is white space. -/
def isBlank : Utf8.Rune → Bool
  | .scalar _ [a] => one a
  | .scalar _ [a, b] => two a b
  | .scalar _ [a, b, c] => three a b c
  | _ => false

/-- Drop white space from the front of a text. The tests for spellings of two
and three bytes are given, so that the text may be read from either end. -/
def dropBlank (pair : UInt8 → UInt8 → Bool) (triple : UInt8 → UInt8 → UInt8 → Bool) :
    Bytes → Bytes
  | [] => []
  | a :: s =>
    if one a then dropBlank pair triple s
    else
      match s with
      | [] => [a]
      | b :: s₁ =>
        if pair a b then dropBlank pair triple s₁
        else
          match s₁ with
          | [] => [a, b]
          | c :: s₂ => if triple a b c then dropBlank pair triple s₂ else a :: b :: c :: s₂

/-- The text without leading white space. -/
def trimLeft (text : Bytes) : Bytes := dropBlank two three text

/-- The text without trailing white space. -/
def trimRight (text : Bytes) : Bytes :=
  (dropBlank (fun a b => two b a) (fun a b c => three c b a) text.reverse).reverse

/-- The text without white space at its ends. -/
def trim (text : Bytes) : Bytes := trimRight (trimLeft text)

/-- Put a rune in front of the words that follow it. The first component is the
word that the rune may belong to. -/
private def consRune (r : Utf8.Rune) (acc : Bytes × List Bytes) : Bytes × List Bytes :=
  if isBlank r then ([], if acc.1 = [] then acc.2 else acc.1 :: acc.2)
  else (r.bytes ++ acc.1, acc.2)

/-- The words of a text: its longest runs without white space. -/
def words (text : Bytes) : List Bytes :=
  let acc := (Utf8.runes text).foldr consRune ([], [])
  if acc.1 = [] then acc.2 else acc.1 :: acc.2

end Stackling.Blank
