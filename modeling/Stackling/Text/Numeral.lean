import Stackling.Bytes

/-!
# Integer numerals

Integers written in one of four bases. A numeral in hexadecimal, octal or
binary starts with a zero and a letter; a zero alone also starts an octal
numeral. Underscores may stand between digits. Numerals are read from left to
right, so one that becomes too large is refused for that before what follows is
looked at.
-/

namespace Stackling.Numeral

/-- Why a text is not a numeral. -/
inductive Error where
  /-- It has not the form of one. -/
  | form
  /-- Its number is too large. -/
  | range
  deriving DecidableEq, Repr

/-- The value of a digit in any base. -/
def digit? (b : UInt8) : Option Nat :=
  if Bytes.isDigit b then some (b.toNat - 48)
  else if 97 ≤ b && b ≤ 122 then some (b.toNat - 87)
  else if 65 ≤ b && b ≤ 90 then some (b.toNat - 55)
  else none

/-- The base of a numeral and its digits. -/
def base : Bytes → Nat × Bytes
  | 48 :: b :: d :: digits =>
    if b = 98 || b = 66 then (2, d :: digits)
    else if b = 111 || b = 79 then (8, d :: digits)
    else if b = 120 || b = 88 then (16, d :: digits)
    else (8, b :: d :: digits)
  | 48 :: digits => (8, digits)
  | digits => (10, digits)

/-- The number of digits in a base, which must fit 64 bits. Underscores are
passed over. -/
def number (base : Nat) (n : Nat) : Bytes → Except Error Nat
  | [] => .ok n
  | b :: s =>
    if b = 95 then number base n s
    else
      match digit? b with
      | none => .error .form
      | some d =>
        if base ≤ d then .error .form
        else if 0x10000000000000000 ≤ base * n + d then .error .range
        else number base (base * n + d) s

/-- Whether each underscore stands between two digits; `afterDigit` tells
whether a digit was read last. -/
def separates (hex : Bool) (afterDigit afterUnderscore : Bool) : Bytes → Bool
  | [] => !afterUnderscore
  | b :: s =>
    if b = 95 then afterDigit && separates hex false true s
    else
      let isDigit := Bytes.isDigit b || (hex && (digit? b).any (· < 16))
      (isDigit || !afterUnderscore) && separates hex isDigit false s

/-- Whether the underscores of a numeral stand in their places. What tells the
base counts as a digit. -/
def underscoresFit (text : Bytes) : Bool :=
  match text with
  | 48 :: b :: digits =>
    if b = 120 || b = 88 then separates true true false digits
    else if b = 98 || b = 66 || b = 111 || b = 79 then separates false true false digits
    else separates false false false text
  | _ => separates false false false text

/-- A numeral without a sign, of 64 bits. -/
def natural (text : Bytes) : Except Error Nat :=
  if text = [] then .error .form
  else
    let (base, digits) := base text
    match number base 0 digits with
    | .error e => .error e
    | .ok n => if underscoresFit text then .ok n else .error .form

/-- A numeral with an optional sign, whose number fits 64 bits with a sign. -/
def integer (text : Bytes) : Except Error Int :=
  match text with
  | 43 :: digits => positive digits
  | 45 :: digits =>
    match natural digits with
    | .error e => .error e
    | .ok n => if n ≤ 0x8000000000000000 then .ok (-(n : Int)) else .error .range
  | digits => positive digits
where
  /-- A numeral whose number is not negative. -/
  positive (digits : Bytes) : Except Error Int :=
    match natural digits with
    | .error e => .error e
    | .ok n => if n < 0x8000000000000000 then .ok (n : Int) else .error .range

end Stackling.Numeral
