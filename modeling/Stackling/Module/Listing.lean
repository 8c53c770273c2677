import Stackling.Module
import Stackling.Table
import Stackling.Text.Quoted

/-!
# Listings of code

The code of a module as one table for each routine. A text constant is shown
beside its number if there is one; a number below zero names nothing at all,
and no listing can be made.
-/

namespace Stackling.Module

/-- The operand of a code as a listing shows it. -/
def operandText? (m : Module) (code : Code) : Option Bytes :=
  let operand := Decimal.ofInt32 code.operand
  match code.opcode? with
  | some .pushInt => some operand
  | some .pushText =>
    if code.operand < 0 then none
    else
      match m.constants[code.operand.toInt.toNat]? with
      | some text => some (ascii "#" ++ operand ++ ascii " " ++ Quoted.quote text)
      | none => some (ascii "#" ++ operand)
  | some .load | some .store => some (code.kind.name ++ ascii " " ++ operand)
  | some .print => some code.kind.name
  | some .branch => some (code.relation.name ++ ascii " -> " ++ operand)
  | some .jump => some (ascii "-> " ++ operand)
  | _ => some []

/-- The columns of a listing. -/
def columns : List Column :=
  [⟨ascii "PC", .right⟩, ⟨ascii "OP", .left⟩, ⟨ascii "OPERAND", .left⟩]

/-- The row of the code at an address. -/
def row? (m : Module) (address : Nat) (code : Code) : Option (List Bytes) :=
  (m.operandText? code).map fun operand =>
    [Decimal.ofNat address, Opcode.nameOf code.op, operand]

/-- The table of a routine. -/
def table? (m : Module) (r : Frame) : Option Table := do
  let rows ← r.code.toList.zipIdx.mapM fun (code, address) => m.row? address code
  let title := m.name ++ ascii "." ++ r.name ++ ascii " (max stack " ++ Decimal.ofInt r.maxStack
    ++ ascii ", max locals " ++ Decimal.ofInt r.maxLocals ++ ascii ")"
  some { title, columns, rows }

/-- The listing of a module. -/
def listing? (m : Module) : Option Bytes :=
  (m.routines.mapM m.table?).map fun tables =>
    tables.flatMap fun t => t.render ++ [Bytes.newline]

end Stackling.Module
