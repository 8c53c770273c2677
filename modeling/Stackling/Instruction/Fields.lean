import Stackling.Instruction

/-!
# Instructions as records

The form in which instructions are exchanged with other programs: one record
with all the fields that any instruction may have. Fields that an operation
does not use are ignored when a record is read, and are zero or empty in the
record of an instruction.
-/

namespace Stackling.Instruction

/-- The fields of an instruction, whatever its operation. -/
structure Fields where
  /-- The operation byte. -/
  op : UInt8
  kind : Kind := ⟨0⟩
  relation : Relation := ⟨0⟩
  operand : Int32 := 0
  text : Bytes := []
  target : Label := []
  deriving DecidableEq, Repr

/-- The instruction that a record describes. -/
def ofFields (f : Fields) : Instruction :=
  match h : Opcode.ofByte? f.op with
  | some .pushInt => pushInt f.operand
  | some .pushText => pushText f.text
  | some .load => load f.kind f.operand
  | some .store => store f.kind f.operand
  | some .add => arith .add
  | some .sub => arith .sub
  | some .mul => arith .mul
  | some .div => arith .div
  | some .branch => branch f.relation f.target
  | some .jump => jump f.target
  | some .label => label f.target
  | some .openOutput => openOutput
  | some .openInput => openInput
  | some .print => print f.kind
  | some .readInt => readInt
  | some .readLine => readLine
  | some .ret => ret
  | none => undefined f.op h

/-- The record of an instruction. -/
def fields : Instruction → Fields
  | pushInt value => { op := Opcode.pushInt.byte, operand := value }
  | pushText text => { op := Opcode.pushText.byte, kind := .ref, text }
  | load kind slot => { op := Opcode.load.byte, kind, operand := slot }
  | store kind slot => { op := Opcode.store.byte, kind, operand := slot }
  | arith a => { op := a.opcode.byte }
  | branch relation target => { op := Opcode.branch.byte, relation, target }
  | jump target => { op := Opcode.jump.byte, target }
  | label name => { op := Opcode.label.byte, target := name }
  | openOutput => { op := Opcode.openOutput.byte }
  | openInput => { op := Opcode.openInput.byte }
  | print kind => { op := Opcode.print.byte, kind }
  | readInt => { op := Opcode.readInt.byte }
  | readLine => { op := Opcode.readLine.byte }
  | ret => { op := Opcode.ret.byte }
  | undefined b _ => { op := b }

end Stackling.Instruction
