import Stackling.Text.Decimal

/-!
# Operation codes

The operations of the stack machine, the byte that stands for each of them in
an encoded module, and what each does to the depth of the operand stack.
-/

namespace Stackling

/-- An operation of the stack machine. -/
inductive Opcode where
  /-- Push an integer constant. -/
  | pushInt
  /-- Push a text constant. -/
  | pushText
  /-- Push the content of a slot. -/
  | load
  /-- Pop into a slot. -/
  | store
  /-- Pop two integers and push their sum. -/
  | add
  /-- Pop two integers and push their difference. -/
  | sub
  /-- Pop two integers and push their product. -/
  | mul
  /-- Pop two integers and push their quotient. -/
  | div
  /-- Pop two integers and jump when they are related. -/
  | branch
  /-- Jump. -/
  | jump
  /-- Mark a jump target; no machine executes it. -/
  | label
  /-- Push the output handle. -/
  | openOutput
  /-- Push an input handle. -/
  | openInput
  /-- Pop a value and an output handle and print the value on a line. -/
  | print
  /-- Pop an input handle and push the next integer. -/
  | readInt
  /-- Pop an input handle and push the rest of the line. -/
  | readLine
  /-- Leave the routine. -/
  | ret
  deriving DecidableEq, Repr

namespace Opcode

/-- The byte that stands for an operation. -/
def byte : Opcode → UInt8
  | pushInt => 1
  | pushText => 2
  | load => 3
  | store => 4
  | add => 5
  | sub => 6
  | mul => 7
  | div => 8
  | branch => 9
  | jump => 10
  | label => 11
  | openOutput => 12
  | openInput => 13
  | print => 14
  | readInt => 15
  | readLine => 16
  | ret => 17

/-- The operation that a byte stands for. -/
def ofByte? (b : UInt8) : Option Opcode :=
  match b with
  | 1 => some pushInt
  | 2 => some pushText
  | 3 => some load
  | 4 => some store
  | 5 => some add
  | 6 => some sub
  | 7 => some mul
  | 8 => some div
  | 9 => some branch
  | 10 => some jump
  | 11 => some label
  | 12 => some openOutput
  | 13 => some openInput
  | 14 => some print
  | 15 => some readInt
  | 16 => some readLine
  | 17 => some ret
  | _ => none

@[simp] theorem ofByte?_byte (op : Opcode) : ofByte? op.byte = some op := by
  cases op <;> rfl

/-- Only one byte stands for an operation. -/
theorem byte_eq_of_ofByte? {b : UInt8} {op : Opcode} (h : ofByte? b = some op) : op.byte = b := by
  unfold ofByte? at h
  split at h <;> simp_all <;> subst h <;> rfl

/-- The word for an operation in listings and text assembly. -/
def name : Opcode → Bytes
  | pushInt => ascii "PUSH"
  | pushText => ascii "PUSH"
  | load => ascii "LOAD"
  | store => ascii "STORE"
  | add => ascii "ADD"
  | sub => ascii "SUB"
  | mul => ascii "MUL"
  | div => ascii "DIV"
  | branch => ascii "IF"
  | jump => ascii "GOTO"
  | label => ascii "LABEL"
  | openOutput => ascii "OUTPUT"
  | openInput => ascii "INPUT"
  | print => ascii "PRINT"
  | readInt => ascii "READINT"
  | readLine => ascii "READLINE"
  | ret => ascii "RETURN"

/-- The word for the operation of a byte. A byte without an operation is shown
by its number. -/
def nameOf (b : UInt8) : Bytes :=
  match ofByte? b with
  | some op => op.name
  | none => ascii "OP(" ++ Decimal.ofNat b.toNat ++ ascii ")"

/-- How many operands an operation pops. -/
def pops : Opcode → Nat
  | store | readInt | readLine => 1
  | add | sub | mul | div | branch | print => 2
  | pushInt | pushText | load | jump | label | openOutput | openInput | ret => 0

/-- How many operands an operation pushes. -/
def pushes : Opcode → Nat
  | pushInt | pushText | load | openOutput | openInput | add | sub | mul | div | readInt
  | readLine => 1
  | store | branch | print | jump | label | ret => 0

/-- How many operands the operation of a byte pops; none if it has no operation. -/
def popsOf (b : UInt8) : Nat := (ofByte? b).elim 0 pops

/-- How many operands the operation of a byte pushes; none if it has no operation. -/
def pushesOf (b : UInt8) : Nat := (ofByte? b).elim 0 pushes

end Opcode

end Stackling
