import Stackling.Module
import Stackling.Output

/-!
# Encoding modules

The binary form of a module. All numbers are big endian.

* the mark `KCM1`
* the name: its length in two bytes, then its bytes
* the number of constants in four bytes, and for each its length in four bytes
  and its bytes
* the number of routines in two bytes, and for each its name, its stack depth
  and its number of slots in two bytes each, the number of its instructions in
  four bytes, and its instructions
* an instruction: its operation byte, its kind or relation byte, and its
  operand in four bytes

An encoding is written in pieces, one for each field. It may end early: a
routine whose frame does not fit its fields is refused when it is reached.
-/

namespace Stackling

namespace Encode

/-- Why a module cannot be encoded. -/
inductive Refusal where
  /-- The name is too long, or there are too many routines. -/
  | tooLarge
  /-- The frame of a routine is too large. -/
  | frame (routine : Bytes)
  deriving DecidableEq, Repr

/-- The greatest number that fits two bytes. -/
def maxShort : Nat := 65535

/-- The mark that every encoded module starts with. -/
def magic : Bytes := ascii "KCM1"

/-- A number in two bytes; higher bytes are dropped. -/
def short (n : Nat) : Bytes := Bytes.bigEndian 2 n

/-- An integer in two bytes; higher bytes are dropped. -/
def shortInt (n : Int) : Bytes := short (n.emod 65536).toNat

/-- A number in four bytes; higher bytes are dropped. -/
def long (n : Nat) : Bytes := Bytes.bigEndian 4 n

/-- The byte that qualifies an operation: the relation of a conditional jump,
the kind of a load, store, print or text constant, and zero otherwise. -/
def qualifier (code : Code) : UInt8 :=
  match code.opcode? with
  | some .branch => code.relation.byte
  | some .pushText | some .load | some .store | some .print => code.kind.byte
  | _ => 0

/-- The pieces of an instruction. -/
def code (c : Code) : List Bytes :=
  [[c.op, qualifier c], long c.operand.toUInt32.toNat]

/-- The pieces of a routine. -/
def frame (r : Frame) : List Bytes :=
  [short r.name.length, r.name, shortInt r.maxStack, shortInt r.maxLocals, long r.code.size]
    ++ r.code.toList.flatMap code

/-- The pieces that can be written, and why there are no more. -/
structure Encoding where
  pieces : List Bytes
  refusal : Option Refusal := none
  deriving DecidableEq, Repr

/-- Whether the frame of a routine fits its fields. -/
def fits (r : Frame) : Bool := r.maxStack ≤ maxShort && r.maxLocals ≤ maxShort

/-- The pieces of the routines up to the first that does not fit. -/
def frames (rs : List Frame) : Encoding :=
  { pieces := (rs.takeWhile fits).flatMap frame
    refusal := (rs.find? (!fits ·)).map fun r => .frame r.name }

/-- The encoding of a module. -/
def ofModule (m : Module) : Encoding :=
  if m.name.length > maxShort ∨ m.routines.length > maxShort then
    { pieces := [], refusal := some .tooLarge }
  else
    let head := [magic, short m.name.length, m.name, long m.constants.size]
    let constants := m.constants.toList.flatMap fun c => [long c.length, c]
    let body := frames m.routines
    { body with
      pieces := head ++ constants ++ [short m.routines.length] ++ body.pieces }

/-- Why an encoded module could not be written. -/
inductive Error where
  /-- The module has no encoding. -/
  | refused (refusal : Refusal)
  /-- The output refused a piece. -/
  | full
  deriving DecidableEq, Repr

/-- The wording of an error. -/
def Error.message : Error → Bytes
  | refused .tooLarge => ascii "module too large to encode: bad module"
  | refused (.frame r) => ascii "routine " ++ r ++ ascii ": frame too large to encode: bad module"
  | full => Output.refusal

end Encode

namespace Module

/-- Write a module to an output. A refusal of the module is reported before one
of the output; what was written until then stays written. -/
def encode (m : Module) (output : Output) : Output × Option Encode.Error :=
  let encoding := Encode.ofModule m
  let (output, complete) := output.writeAll encoding.pieces
  match encoding.refusal with
  | some refusal => (output, some (.refused refusal))
  | none => (output, if complete then none else some .full)

end Module

end Stackling
