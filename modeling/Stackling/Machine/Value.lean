import Stackling.Text.Decimal

/-!
# Machine values

What an operand or a slot may hold. A slot that was never stored to holds
`null`, which no instruction can push.
-/

namespace Stackling

/-- The content of an operand or a slot. -/
inductive Value where
  | null
  | int (n : Int32)
  | text (bytes : Bytes)
  /-- The handle that values are printed to. -/
  | output
  /-- A handle that values are read from. -/
  | input
  deriving DecidableEq, Repr

namespace Value

/-- A value as it is printed. -/
def render : Value → Bytes
  | null => ascii "null"
  | int n => Decimal.ofInt32 n
  | text bytes => bytes
  | output => ascii "<output>"
  | input => ascii "<input>"

/-- The integer that a value is. -/
def int? : Value → Option Int32
  | int n => some n
  | _ => none

end Value

end Stackling
