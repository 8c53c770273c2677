import Stackling.Bytes

/-!
# Outputs

An output collects what is written to it, piece by piece. It may have a limit:
a piece that would make the content longer than the limit is refused as a
whole, and nothing of it is kept.
-/

namespace Stackling

/-- A place that bytes are written to. -/
structure Output where
  /-- All that has been written. -/
  content : Array UInt8 := #[]
  /-- The greatest length that the content may reach, if there is one. -/
  limit : Option Nat := none
  deriving DecidableEq, Repr

namespace Output

/-- The bytes that have been written. -/
def bytes (output : Output) : Bytes := output.content.toList

/-- Whether a piece of the given length may be written. -/
def accepts (output : Output) (length : Nat) : Bool :=
  match output.limit with
  | none => true
  | some limit => output.content.size + length ≤ limit

/-- The output with a piece added at its end. -/
def append (output : Output) (piece : Bytes) : Output :=
  { output with content := output.content ++ piece }

/-- Write a piece, unless the output refuses it. -/
def write? (output : Output) (piece : Bytes) : Option Output :=
  if output.accepts piece.length then some (output.append piece) else none

/-- Write pieces in order up to the first that is refused; the flag tells
whether all of them were written. -/
def writeAll (output : Output) : List Bytes → Output × Bool
  | [] => (output, true)
  | piece :: pieces =>
    if output.accepts piece.length then (output.append piece).writeAll pieces else (output, false)

/-- The message of a refusal. -/
def refusal : Bytes := ascii "writer is full"

@[simp] theorem bytes_append (output : Output) (piece : Bytes) :
    (output.append piece).bytes = output.bytes ++ piece := by
  simp [append, bytes]

@[simp] theorem append_nil (output : Output) : output.append [] = output := by
  simp [append]

theorem append_append (output : Output) (first second : Bytes) :
    (output.append first).append second = output.append (first ++ second) := by
  have h : output.content ++ first ++ second = output.content ++ (first ++ second) := by
    apply Array.ext'
    simp
  simp only [append, h]

end Output

end Stackling
