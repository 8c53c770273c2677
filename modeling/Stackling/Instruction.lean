import Stackling.Arith
import Stackling.Relation
import Stackling.Text.Quoted

/-!
# Symbolic instructions

Instructions as the compiler emits them and as text assembly spells them: jumps
name labels, and text constants stand in the instruction itself. An instruction
whose operation byte has no meaning can be carried along, but no other
constructor may be used for it, so every instruction is written in one way.
-/

namespace Stackling

/-- The name of a jump target. -/
abbrev Label := Bytes

namespace Label

/-- The label made of a hint and a number. -/
def numbered (hint : Bytes) (n : Nat) : Label := hint ++ ascii "_" ++ Decimal.ofNat n

end Label

/-- A symbolic instruction. -/
inductive Instruction where
  /-- Push an integer constant. -/
  | pushInt (value : Int32)
  /-- Push a text constant. -/
  | pushText (text : Bytes)
  /-- Push the content of a slot. -/
  | load (kind : Kind) (slot : Int32)
  /-- Pop into a slot. -/
  | store (kind : Kind) (slot : Int32)
  /-- Pop two integers and push the result of an operation on them. -/
  | arith (op : Arith)
  /-- Pop two integers and go to the target if they are related. -/
  | branch (relation : Relation) (target : Label)
  /-- Go to the target. -/
  | jump (target : Label)
  /-- The place that jumps to the label go to. -/
  | label (name : Label)
  /-- Push the output handle. -/
  | openOutput
  /-- Push an input handle. -/
  | openInput
  /-- Pop a value and an output handle and print the value on a line. -/
  | print (kind : Kind)
  /-- Pop an input handle and push the next integer. -/
  | readInt
  /-- Pop an input handle and push the rest of the line. -/
  | readLine
  /-- Leave the routine. -/
  | ret
  /-- An operation byte without a meaning. -/
  | undefined (op : UInt8) (meaningless : Opcode.ofByte? op = none)
  deriving DecidableEq, Repr

namespace Instruction

/-- The operation byte of an instruction. -/
def op : Instruction → UInt8
  | pushInt _ => Opcode.pushInt.byte
  | pushText _ => Opcode.pushText.byte
  | load _ _ => Opcode.load.byte
  | store _ _ => Opcode.store.byte
  | arith a => a.opcode.byte
  | branch _ _ => Opcode.branch.byte
  | jump _ => Opcode.jump.byte
  | label _ => Opcode.label.byte
  | openOutput => Opcode.openOutput.byte
  | openInput => Opcode.openInput.byte
  | print _ => Opcode.print.byte
  | readInt => Opcode.readInt.byte
  | readLine => Opcode.readLine.byte
  | ret => Opcode.ret.byte
  | undefined b _ => b

/-- Whether an instruction only marks a jump target. -/
def isLabel : Instruction → Bool
  | label _ => true
  | _ => false

/-- Whether an instruction names a target to go to. -/
def isJump : Instruction → Bool
  | branch _ _ | jump _ => true
  | _ => false

/-- The slot that a load or a store is about. -/
def slot? : Instruction → Option Int32
  | load _ slot | store _ slot => some slot
  | _ => none

/-- An instruction as text assembly spells it. -/
def text : Instruction → Bytes
  | pushInt value => ascii "PUSH INT " ++ Decimal.ofInt32 value
  | pushText text => ascii "PUSH TEXT " ++ Quoted.quote text
  | load kind slot => ascii "LOAD " ++ kind.name ++ ascii " " ++ Decimal.ofInt32 slot
  | store kind slot => ascii "STORE " ++ kind.name ++ ascii " " ++ Decimal.ofInt32 slot
  | branch relation target => ascii "IF " ++ relation.name ++ ascii " " ++ target
  | jump target => ascii "GOTO " ++ target
  | label name => ascii "LABEL " ++ name
  | print kind => ascii "PRINT " ++ kind.name
  | other => Opcode.nameOf other.op

end Instruction

end Stackling
