import Stackling.AsmUnit

/-!
# Units under construction

A draft is a unit to which routines and instructions are added one after
another. Closing a routine ends it with a return and fixes how many slots it
asks for; a routine is closed at most once, but may grow afterwards.
-/

namespace Stackling

/-- A routine under construction. -/
structure OpenRoutine where
  routine : Routine
  /-- Whether the routine has been closed. -/
  closed : Bool := false
  deriving DecidableEq, Repr

/-- A unit under construction. -/
structure Draft where
  name : Bytes
  routines : Array OpenRoutine := #[]
  /-- The number of the next label. -/
  nextLabel : Nat := 0
  deriving DecidableEq, Repr

namespace Draft

/-- The unit as it stands. -/
def unit (draft : Draft) : AsmUnit :=
  { name := draft.name, routines := draft.routines.toList.map (·.routine) }

/-- Add an empty routine. -/
def openRoutine (draft : Draft) (name : Bytes) : Draft :=
  { draft with routines := draft.routines.push { routine := { name, locals := 0, code := [] } } }

/-- Add instructions to the routine with the given number. -/
def emit (draft : Draft) (index : Nat) (code : List Instruction) : Draft :=
  { draft with
    routines := draft.routines.modify index fun r =>
      { r with routine := { r.routine with code := r.routine.code ++ code } } }

/-- End the routine with the given number, unless it has been closed before. -/
def close (draft : Draft) (index : Nat) (locals : Int) : Draft :=
  { draft with
    routines := draft.routines.modify index fun r =>
      if r.closed then r
      else
        { routine := { r.routine with locals, code := r.routine.code ++ [.ret] }, closed := true } }

/-- The number of the first routine with the given name. -/
def find? (draft : Draft) (name : Bytes) : Option Nat :=
  draft.routines.findIdx? fun r => r.routine.name == name

/-- A label that the draft has not handed out before. -/
def newLabel (draft : Draft) (hint : Bytes) : Label × Draft :=
  (Label.numbered hint draft.nextLabel, { draft with nextLabel := draft.nextLabel + 1 })

end Draft

end Stackling
