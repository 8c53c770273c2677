import Stackling.Input
import Stackling.Machine.Scan
import Stackling.Machine.Value
import Stackling.Module
import Stackling.Output

/-!
# Machine states

A machine works on an operand stack of bounded depth, a fixed number of slots,
one input and one output. This module has the state and the faults that an
instruction may run into.
-/

namespace Stackling

/-- The state of a machine between two instructions. -/
structure State where
  /-- The address of the next instruction. -/
  pc : Nat := 0
  /-- How many instructions have been executed. -/
  steps : Nat := 0
  /-- The operands, the deepest first. -/
  stack : Array Value := #[]
  slots : Array Value := #[]
  input : Input := .ofBytes []
  output : Output := {}
  deriving DecidableEq, Repr

/-- Why an instruction cannot be carried out. -/
inductive Fault where
  | constant (index : Int32)
  | slotRange (slot : Int32)
  | uninitialized (slot : Int32)
  | overflow (maxStack : Int)
  | underflow
  | integers (left right : Value)
  | divisionByZero
  | printTo (handle : Value)
  | readFrom (handle : Value)
  | scan (fault : Scan.Fault)
  | opcode (op : UInt8)
  /-- The output refused what was printed. -/
  | full
  deriving DecidableEq, Repr

/-- The wording of a fault. -/
def Fault.message : Fault → Bytes
  | constant index => ascii "constant " ++ Decimal.ofInt32 index ++ ascii ": bad module"
  | slotRange slot => ascii "slot " ++ Decimal.ofInt32 slot ++ ascii " out of range: bad module"
  | uninitialized slot =>
    ascii "slot " ++ Decimal.ofInt32 slot ++ ascii ": load of an uninitialized slot"
  | overflow maxStack =>
    ascii "max stack " ++ Decimal.ofInt maxStack ++ ascii ": operand stack overflow"
  | underflow => ascii "operand stack underflow"
  | integers left right =>
    ascii "expect integers, got " ++ left.render ++ ascii " and " ++ right.render
      ++ ascii ": type mismatch"
  | divisionByZero => ascii "division by zero"
  | printTo handle => ascii "print to " ++ handle.render ++ ascii ": type mismatch"
  | readFrom handle => ascii "read from " ++ handle.render ++ ascii ": type mismatch"
  | scan fault => fault.message
  | opcode op => Decimal.ofNat op.toNat ++ ascii ": bad opcode"
  | full => Output.refusal

/-- What comes of one instruction. -/
inductive Step where
  /-- Go on in the given state. -/
  | next (s : State)
  /-- The routine is left. -/
  | done (s : State)
  /-- The instruction failed and left the given state. -/
  | fault (f : Fault) (s : State)
  /-- The machine itself breaks down. -/
  | crash

namespace State

/-- Take the topmost operand, if there is one. -/
def pop (s : State) : Option Value × State :=
  (s.stack.back?, { s with stack := s.stack.pop })

/-- Push an operand and go on with the next instruction. -/
def push (frame : Frame) (s : State) (v : Value) : Step :=
  if (s.stack.size : Int) < frame.maxStack then
    .next { s with stack := s.stack.push v, pc := s.pc + 1 }
  else .fault (.overflow frame.maxStack) s

/-- Go on at an address. A negative address leaves the routine. -/
def goTo (s : State) (address : Int32) : Step :=
  match address.toInt with
  | .ofNat pc => .next { s with pc }
  | .negSucc _ => .done s

/-- The place of a slot, if the machine has it. -/
def slotIndex? (s : State) (slot : Int32) : Option Nat :=
  match slot.toInt with
  | .ofNat index => if index < s.slots.size then some index else none
  | .negSucc _ => none

/-- Take two operands, which must be integers, and go on with them. The left
one lies below the right one. -/
def withInts (s : State) (k : State → Int32 → Int32 → Step) : Step :=
  match s.pop with
  | (none, s) => .fault .underflow s
  | (some right, s) =>
    match s.pop with
    | (none, s) => .fault .underflow s
    | (some left, s) =>
      match left.int?, right.int? with
      | some a, some b => k s a b
      | _, _ => .fault (.integers left right) s

/-- Push a text constant. -/
def pushConstant (m : Module) (frame : Frame) (s : State) (index : Int32) : Step :=
  match index.toInt with
  | .negSucc _ => .crash
  | .ofNat i =>
    match m.constants[i]? with
    | none => .fault (.constant index) s
    | some text => s.push frame (.text text)

/-- Push the content of a slot. -/
def load (frame : Frame) (s : State) (slot : Int32) : Step :=
  match s.slotIndex? slot with
  | none => .fault (.slotRange slot) s
  | some index =>
    match s.slots.getD index .null with
    | .null => .fault (.uninitialized slot) s
    | v => s.push frame v

/-- Pop into a slot. -/
def store (s : State) (slot : Int32) : Step :=
  match s.slotIndex? slot with
  | none => .fault (.slotRange slot) s
  | some index =>
    match s.pop with
    | (none, s) => .fault .underflow s
    | (some v, s) => .next { s with slots := s.slots.setIfInBounds index v, pc := s.pc + 1 }

/-- Pop two integers and push the result of an operation on them. -/
def arith (frame : Frame) (s : State) (op : Arith) : Step :=
  s.withInts fun s a b =>
    match op.result? a b with
    | none => .fault .divisionByZero s
    | some n => s.push frame (.int n)

/-- Pop two integers and jump if they are related. -/
def branch (s : State) (relation : Relation) (address : Int32) : Step :=
  s.withInts fun s a b =>
    if relation.holds a b then s.goTo address else .next { s with pc := s.pc + 1 }

/-- Pop a value and an output handle and print the value on a line. -/
def print (s : State) : Step :=
  match s.pop with
  | (none, s) => .fault .underflow s
  | (some v, s) =>
    match s.pop with
    | (none, s) => .fault .underflow s
    | (some .output, s) =>
      let line := v.render ++ [Bytes.newline]
      if s.output.accepts line.length then
        .next { s with output := s.output.append line, pc := s.pc + 1 }
      else .fault .full s
    | (some handle, s) => .fault (.printTo handle) s

/-- Pop an input handle, read with it, and push what was read. -/
def read {α : Type} (frame : Frame) (s : State) (scan : Input → Input × Except Scan.Fault α)
    (value : α → Value) : Step :=
  match s.pop with
  | (none, s) => .fault .underflow s
  | (some .input, s) =>
    match scan s.input with
    | (input, .error fault) => .fault (.scan fault) { s with input }
    | (input, .ok a) => { s with input }.push frame (value a)
  | (some handle, s) => .fault (.readFrom handle) s

/-- Execute one instruction. -/
def execute (m : Module) (frame : Frame) (code : Code) (s : State) : Step :=
  match code.opcode? with
  | some .pushInt => s.push frame (.int code.operand)
  | some .pushText => s.pushConstant m frame code.operand
  | some .load => s.load frame code.operand
  | some .store => s.store code.operand
  | some .add => s.arith frame .add
  | some .sub => s.arith frame .sub
  | some .mul => s.arith frame .mul
  | some .div => s.arith frame .div
  | some .branch => s.branch code.relation code.operand
  | some .jump => s.goTo code.operand
  | some .openOutput => s.push frame .output
  | some .openInput => s.push frame .input
  | some .print => s.print
  | some .readInt => s.read frame Scan.integer .int
  | some .readLine => s.read frame Scan.line .text
  | some .ret => .done s
  | some .label | none => .fault (.opcode code.op) s

end State

end Stackling
