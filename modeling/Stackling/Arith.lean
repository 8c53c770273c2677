import Stackling.Opcode

/-!
# Arithmetic

The four operations on machine integers. Sums, differences and products wrap
around at 32 bits. Quotients are cut toward zero, and the one quotient that
does not fit wraps around; dividing by zero has no result.
-/

namespace Stackling

/-- An arithmetic operation. -/
inductive Arith where
  | add
  | sub
  | mul
  | div
  deriving DecidableEq, Repr

namespace Arith

/-- The machine operation that carries out the arithmetic operation. -/
def opcode : Arith → Opcode
  | add => .add
  | sub => .sub
  | mul => .mul
  | div => .div

/-- The result of an operation; none when it divides by zero. -/
def result? : Arith → Int32 → Int32 → Option Int32
  | add, a, b => some (a + b)
  | sub, a, b => some (a - b)
  | mul, a, b => some (a * b)
  | div, a, b => if b = 0 then none else some (a / b)

end Arith

end Stackling
