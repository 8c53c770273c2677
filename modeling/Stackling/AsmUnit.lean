import Stackling.Instruction

/-!
# Units of symbolic code

A unit is what one program is compiled to: a name and routines of symbolic
instructions. Text assembly prints a unit with one instruction a line; labels
stand at the left margin, all other instructions are indented.
-/

namespace Stackling

/-- A routine of symbolic code. -/
structure Routine where
  name : Bytes
  /-- How many slots the routine asks for. -/
  locals : Int
  code : List Instruction
  deriving DecidableEq, Repr

/-- A named group of routines. -/
structure AsmUnit where
  name : Bytes
  routines : List Routine
  deriving DecidableEq, Repr

/-- The name of the routine that a machine starts with. -/
def entryName : Bytes := ascii "main"

namespace AsmUnit

/-- How many instructions a unit has, labels not counted. -/
def instructionCount (unit : AsmUnit) : Nat :=
  (unit.routines.flatMap (·.code)).countP fun i => !i.isLabel

/-- One line of text assembly. -/
def formatInstruction (i : Instruction) : Bytes :=
  if i.isLabel then i.text ++ [Bytes.newline] else 9 :: i.text ++ [Bytes.newline]

/-- A routine as text assembly. -/
def formatRoutine (r : Routine) : Bytes :=
  ascii "ROUTINE " ++ r.name ++ ascii " " ++ Decimal.ofInt r.locals ++ [Bytes.newline]
    ++ r.code.flatMap formatInstruction

/-- A unit as text assembly. -/
def format (unit : AsmUnit) : Bytes :=
  ascii "UNIT " ++ unit.name ++ [Bytes.newline] ++ unit.routines.flatMap formatRoutine

end AsmUnit

end Stackling
