import Stackling.Bytes

/-!
# Decimal numbers

Numbers are written without leading zeros and with a minus sign when they are
negative. They are read with an optional sign and any number of digits; a
reader of machine integers also refuses what does not fit 32 bits.
-/

namespace Stackling.Decimal

/-- The digits of a natural number. -/
def ofNat (n : Nat) : Bytes :=
  (Nat.toDigits 10 n).map fun c => UInt8.ofNat c.toNat

/-- The digits of an integer, after a minus sign when it is negative. -/
def ofInt : Int → Bytes
  | .ofNat n => ofNat n
  | .negSucc n => 45 :: ofNat (n + 1)

/-- The digits of a machine integer. -/
def ofInt32 (n : Int32) : Bytes := ofInt n.toInt

/-- The number that a list of digits spells. -/
def value (digits : Bytes) : Nat :=
  digits.foldl (fun n d => 10 * n + (d.toNat - 48)) 0

/-- Read one or more digits and nothing else. -/
def toNat? (text : Bytes) : Option Nat :=
  if text ≠ [] ∧ text.all Bytes.isDigit then some (value text) else none

/-- Read an optional sign, one or more digits, and nothing else. -/
def toInt? : Bytes → Option Int
  | 43 :: digits => (toNat? digits).map Int.ofNat
  | 45 :: digits => (toNat? digits).map fun n => -Int.ofNat n
  | digits => (toNat? digits).map Int.ofNat

/-- The machine integer equal to `n`, when there is one. -/
def fit32? (n : Int) : Option Int32 :=
  if -2147483648 ≤ n ∧ n ≤ 2147483647 then some (Int32.ofInt n) else none

/-- Read a machine integer: a signed decimal that fits 32 bits. -/
def toInt32? (text : Bytes) : Option Int32 :=
  (toInt? text).bind fit32?

end Stackling.Decimal
