import Stackling.Machine.State

/-!
# The machine

A machine executes the entry routine of a module until the routine returns, an
instruction fails, the step budget is used up, or the run is canceled. A run
may go on for ever, so it is described by what it has come to after a number of
turns: `Machine.advance` takes a status that many turns further, and a status
in which the machine has stopped stays as it is.
-/

namespace Stackling

/-- How a run ended. -/
inductive Outcome where
  /-- The entry routine returned. -/
  | returned
  /-- The module has no entry routine. -/
  | noEntry (name : Bytes)
  /-- The step budget was used up. -/
  | stepLimit (steps : Nat)
  /-- The run was canceled. -/
  | canceled
  /-- Control left the code of the routine. -/
  | leftCode (routine : Bytes)
  /-- The instruction at an address of a routine failed. -/
  | fault (name routine : Bytes) (address : Nat) (op : UInt8) (fault : Fault)
  /-- The machine itself broke down. -/
  | crashed
  deriving DecidableEq, Repr

/-- The wording of an outcome; a run that returned has none. -/
def Outcome.message? : Outcome → Option Bytes
  | returned => none
  | noEntry name => some (ascii "module " ++ name ++ ascii ": missing entry routine")
  | stepLimit steps =>
    some (ascii "after " ++ Decimal.ofNat steps ++ ascii " steps: step limit exceeded")
  | canceled => some (ascii "context canceled")
  | leftCode routine =>
    some (ascii "routine " ++ routine ++ ascii ": control flow leaves routine without return")
  | fault name routine address op f =>
    some (name ++ ascii "." ++ routine ++ ascii " at " ++ Decimal.ofNat address ++ ascii " ("
      ++ Opcode.nameOf op ++ ascii "): " ++ f.message)
  | crashed => some (ascii "crash")

/-- Where a run stands. -/
inductive Status where
  | running (s : State)
  | stopped (outcome : Outcome) (s : State)
  deriving DecidableEq, Repr

/-- The conditions of a run. -/
structure Limits where
  /-- How many instructions may be executed; there is no bound unless it is
  positive. -/
  maxSteps : Int := 0
  /-- Whether the run has been canceled. -/
  canceled : Bool := false
  deriving DecidableEq, Repr

/-- A cancellation is noticed once in so many instructions. -/
def checkInterval : Nat := 1024

namespace Machine

/-- One turn: execute the next instruction, unless the run has to stop. -/
def turn (m : Module) (frame : Frame) (limits : Limits) (s : State) : Status :=
  match frame.code[s.pc]? with
  | none => .stopped (.leftCode frame.name) s
  | some code =>
    if 0 < limits.maxSteps ∧ limits.maxSteps ≤ s.steps then .stopped (.stepLimit s.steps) s
    else if limits.canceled ∧ s.steps % checkInterval = 0 then .stopped .canceled s
    else
      let address := s.pc
      match { s with steps := s.steps + 1 }.execute m frame code with
      | .next s => .running s
      | .done s => .stopped .returned s
      | .fault f s => .stopped (.fault m.name frame.name address code.op f) s
      | .crash => .stopped .crashed { s with steps := s.steps + 1 }

/-- Take a status a number of turns further. -/
def advance (m : Module) (frame : Frame) (limits : Limits) : Nat → Status → Status
  | 0, status => status
  | _ + 1, .stopped outcome s => .stopped outcome s
  | n + 1, .running s => advance m frame limits n (turn m frame limits s)

/-- How many values the memory of a machine has room for: it has `2 ^ 48` bytes,
and a value takes 24 of them. -/
def room : Nat := 0x1000000000000 / 24

/-- Whether room for so many values can be set aside. -/
def hasRoom (count : Int) : Bool := 0 ≤ count && count ≤ room

/-- The state in which a run of the routine starts; none if room cannot be set
aside for its operands or for its slots, because there are too many of them or
their number is negative. The room for the two is set aside separately. The
input and the output are those of the machine. -/
def start? (frame : Frame) (input : Input) (output : Output) : Option State :=
  if hasRoom frame.maxStack ∧ hasRoom frame.maxLocals then
    some { slots := Array.replicate frame.maxLocals.toNat .null, input, output }
  else none

/-- Start a run of the entry routine with the input and the output of an
earlier state, or tell why there can be no run. -/
def begin (m : Module) (last : State) : Except Outcome (Frame × State) :=
  match m.entry? with
  | none => .error (.noEntry m.name)
  | some frame =>
    match start? frame last.input last.output with
    | none => .error .crashed
    | some s => .ok (frame, s)

end Machine

end Stackling
