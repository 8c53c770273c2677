import Stackling.Machine
import Stackling.Module.Decode

/-!
# Kinds of errors

The wording of an error carries names and numbers; its kind does not. Statements
about how a run ends, and about why a module is not loaded, compare kinds.
-/

namespace Stackling

/-- The kind of an error that ends a run, or that keeps a module from being run. -/
inductive ErrorKind where
  | divisionByZero
  | stepLimit
  | stackUnderflow
  | stackOverflow
  | uninitialized
  | typeMismatch
  | badInput
  | badOpcode
  | badModule
  | noEntry
  | controlFlow
  | canceled
  /-- The output refused what was printed. -/
  | full
  /-- A tree that no program text gives. -/
  | internal
  /-- The machine itself broke down. -/
  | panic
  deriving DecidableEq, Repr

namespace ErrorKind

/-- The kinds that are to blame on a module, and not on what its program computes
or on the conditions of the run. -/
def isStructural : ErrorKind → Bool
  | stackUnderflow | stackOverflow | controlFlow | badOpcode | badModule | noEntry | panic => true
  | divisionByZero | stepLimit | uninitialized | typeMismatch | badInput | canceled | full
  | internal => false

end ErrorKind

/-- The kind of a fault. -/
def Fault.kind : Fault → ErrorKind
  | constant _ | slotRange _ => .badModule
  | uninitialized _ => .uninitialized
  | overflow _ => .stackOverflow
  | underflow => .stackUnderflow
  | integers _ _ | printTo _ | readFrom _ => .typeMismatch
  | divisionByZero => .divisionByZero
  | scan _ => .badInput
  | opcode _ => .badOpcode
  | full => .full

/-- The kind of the error that a run ended with; none if it returned. -/
def Outcome.kind? : Outcome → Option ErrorKind
  | returned => none
  | noEntry _ => some .noEntry
  | stepLimit _ => some .stepLimit
  | canceled => some .canceled
  | leftCode _ => some .controlFlow
  | fault _ _ _ _ f => some f.kind
  | crashed => some .panic

/-- The kind of the error for which a module is not written. -/
def Encode.Error.kind : Encode.Error → ErrorKind
  | .refused _ => .badModule
  | .full => .full

/-- The kind of the error for which bytes are not read as a module. -/
def Decode.Error.kind : Decode.Error → ErrorKind
  | .invalid (.noEntry _) => .noEntry
  | _ => .badModule

end Stackling
