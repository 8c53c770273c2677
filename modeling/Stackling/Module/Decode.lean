import Stackling.Input
import Stackling.Module.Encode

/-!
# Decoding modules

The reader of the binary form, and the check that a module can be loaded: it
has an entry routine, every operation has a meaning, and every constant, slot
and jump target exists.
-/

namespace Stackling

namespace Decode

/-! ## Errors -/

/-- Why a module cannot be loaded although it could be read. -/
inductive Defect where
  /-- There is no entry routine. -/
  | noEntry (name : Bytes)
  | opcode (routine : Bytes) (op : UInt8) (address : Nat)
  | kind (routine : Bytes) (address : Nat)
  | constant (routine : Bytes) (index : Int32)
  | slot (routine : Bytes) (index : Int32)
  | target (routine : Bytes) (address : Int32)
  deriving DecidableEq, Repr

/-- The wording of a defect. -/
def Defect.message : Defect → Bytes
  | noEntry m => ascii "module " ++ m ++ ascii ": missing entry routine"
  | opcode r op address =>
    ascii "routine " ++ r ++ ascii ": bad opcode " ++ Decimal.ofNat op.toNat ++ ascii " at "
      ++ Decimal.ofNat address ++ ascii ": bad module"
  | kind r address =>
    ascii "routine " ++ r ++ ascii ": bad operand kind at " ++ Decimal.ofNat address
      ++ ascii ": bad module"
  | constant r index =>
    ascii "routine " ++ r ++ ascii ": constant " ++ Decimal.ofInt32 index
      ++ ascii " out of range: bad module"
  | slot r index =>
    ascii "routine " ++ r ++ ascii ": slot " ++ Decimal.ofInt32 index
      ++ ascii " out of range: bad module"
  | target r address =>
    ascii "routine " ++ r ++ ascii ": jump target " ++ Decimal.ofInt32 address
      ++ ascii " out of range: bad module"

/-- Why bytes cannot be read as a module. -/
inductive Error where
  /-- The bytes do not start with the mark. -/
  | wrongMagic
  /-- The bytes end too early; the message tells how. -/
  | short (message : Bytes)
  /-- The module cannot be loaded. -/
  | invalid (defect : Defect)
  deriving DecidableEq, Repr

/-- The wording of an error. -/
def Error.message : Error → Bytes
  | wrongMagic => ascii "wrong magic: bad module"
  | short message => message ++ ascii ": bad module"
  | invalid defect => defect.message

/-! ## Fields -/

/-- How a field is missing. -/
inductive Shortage where
  /-- Nothing of the field is there, or part of a string. -/
  | absent
  /-- Part of a field of fixed size is there. -/
  | cut
  deriving DecidableEq, Repr

/-- A reader takes a value from the front of a byte string. -/
abbrev Reader (α : Type) := Bytes → Except Shortage (α × Bytes)

/-- A field of fixed size. -/
def fixed (size : Nat) : Reader Bytes := fun s =>
  let field := s.take size
  if field.length = size then .ok (field, s.drop size)
  else .error (if s = [] then .absent else .cut)

/-- A number of fixed size. -/
def number (size : Nat) : Reader Nat := fun s => do
  let (field, s) ← fixed size s
  .ok (Bytes.ofBigEndian field, s)

/-- The bytes of a string with a known length. -/
def body (length : Nat) : Reader Bytes := fun s =>
  let bytes := s.take length
  if bytes.length = length then .ok (bytes, s.drop length) else .error .absent

/-- A string after its length, which is a number of the given size. -/
def string (size : Nat) : Reader Bytes := fun s => do
  let (length, s) ← number size s
  body length s

/-- A known number of values. -/
def many {α : Type} (reader : Reader α) : Nat → Reader (List α)
  | 0 => fun s => .ok ([], s)
  | count + 1 => fun s => do
    let (value, s) ← reader s
    let (values, s) ← many reader count s
    .ok (value :: values, s)

/-! ## Modules -/

/-- The instruction with the given operation, qualifier and operand. The
qualifier is kept only where the operation has one. -/
def codeOf (op qualifier : UInt8) (operand : Int32) : Code :=
  match Opcode.ofByte? op with
  | some .branch => { op, relation := ⟨qualifier⟩, operand }
  | some .pushText | some .load | some .store | some .print => { op, kind := ⟨qualifier⟩, operand }
  | _ => { op, operand }

/-- An instruction. -/
def code : Reader Code := fun s => do
  let (head, s) ← fixed 2 s
  let (operand, s) ← number 4 s
  .ok (codeOf (head.getD 0 0) (head.getD 1 0) (UInt32.ofNat operand).toInt32, s)

/-- A routine. -/
def frame : Reader Frame := fun s => do
  let (name, s) ← string 2 s
  let (maxStack, s) ← number 2 s
  let (maxLocals, s) ← number 2 s
  let (count, s) ← number 4 s
  let (codes, s) ← many code count s
  .ok ({ name, maxStack, maxLocals, code := codes.toArray }, s)

/-- What follows the mark of a module. -/
def content : Reader Module := fun s => do
  let (name, s) ← string 2 s
  let (constantCount, s) ← number 4 s
  let (constants, s) ← many (string 4) constantCount s
  let (routineCount, s) ← number 2 s
  let (routines, s) ← many frame routineCount s
  .ok ({ name, constants := constants.toArray, routines }, s)

/-! ## Checks -/

/-- Whether an operand is a place in something of the given size. -/
def inRange (operand : Int32) (size : Int) : Bool := 0 ≤ operand.toInt && operand.toInt < size

/-- What is wrong with the instruction at an address of a routine. -/
def codeDefect? (m : Module) (r : Frame) (address : Nat) (c : Code) : Option Defect :=
  match c.opcode? with
  | none | some .label => some (.opcode r.name c.op address)
  | some op =>
    if !c.kind.isKnown || !c.relation.isKnown then some (.kind r.name address)
    else
      match op with
      | .pushText =>
        if inRange c.operand m.constants.size then none else some (.constant r.name c.operand)
      | .load | .store =>
        if inRange c.operand r.maxLocals then none else some (.slot r.name c.operand)
      | .branch | .jump =>
        if inRange c.operand r.code.size then none else some (.target r.name c.operand)
      | _ => none

/-- What is wrong with a routine: the first defect of its code. -/
def frameDefect? (m : Module) (r : Frame) : Option Defect :=
  r.code.toList.zipIdx.findSome? fun (c, address) => codeDefect? m r address c

end Decode

namespace Module

/-- Why a module cannot be loaded: the first defect, if there is one. -/
def defect? (m : Module) : Option Decode.Defect :=
  if m.entry?.isNone then some (.noEntry m.name)
  else m.routines.findSome? (Decode.frameDefect? m)

/-- The message of a shortage. An input that fails tells its own message. -/
def shortageMessage (input : Input) : Decode.Shortage → Bytes
  | .absent => input.ending
  | .cut => input.failure.getD (ascii "unexpected EOF")

/-- Read a module that can be loaded. Bytes after its end are ignored. -/
def decode (input : Input) : Except Decode.Error Module :=
  match Decode.fixed 4 input.unread with
  | .error e => .error (.short (shortageMessage input e))
  | .ok (mark, s) =>
    if mark ≠ Encode.magic then .error .wrongMagic
    else
      match Decode.content s with
      | .error e => .error (.short (shortageMessage input e))
      | .ok (m, _) =>
        match m.defect? with
        | some defect => .error (.invalid defect)
        | none => .ok m

end Module

end Stackling
