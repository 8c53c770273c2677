import Stackling.AsmUnit

/-!
# Modules

A module is what a machine loads: resolved code, a pool of text constants, and
for each routine how deep its operand stack and how many its slots are. All
fields may hold any value; `Decode` lists the conditions that a module must
meet to be loaded.
-/

namespace Stackling

/-- A resolved instruction. What the operand means depends on the operation: an
integer constant, the place of a text in the pool, a slot or an address. -/
structure Code where
  /-- The operation byte. -/
  op : UInt8
  kind : Kind := ⟨0⟩
  relation : Relation := ⟨0⟩
  operand : Int32 := 0
  deriving DecidableEq, Repr

namespace Code

/-- The operation of an instruction, if its byte has one. -/
def opcode? (code : Code) : Option Opcode := Opcode.ofByte? code.op

end Code

/-- A routine of resolved code. -/
structure Frame where
  name : Bytes
  /-- The greatest depth of the operand stack. -/
  maxStack : Int
  /-- The number of slots. -/
  maxLocals : Int
  code : Array Code
  deriving DecidableEq, Repr

/-- A loadable program. -/
structure Module where
  name : Bytes
  /-- The text constants. -/
  constants : Array Bytes
  routines : List Frame
  deriving DecidableEq, Repr

namespace Module

/-- The first routine with the given name. -/
def find? (m : Module) (name : Bytes) : Option Frame :=
  m.routines.find? fun r => r.name == name

/-- The routine that a machine starts with. -/
def entry? (m : Module) : Option Frame := m.find? entryName

end Module

end Stackling
