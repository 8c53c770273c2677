import Stackling.Module.StackDepth

/-!
# Assembling units

Assembling turns a unit into a module. Label instructions are dropped and jumps
get the address of the instruction that follows their label. Text constants
move into a pool, which holds each text once. The frame of a routine is made
large enough for the slots that its code addresses and for its operand stack.

A pool may be shared by several units, one after another. It only ever grows,
also by the constants of code that is then refused, so what a module refers to
stays where it is.
-/

namespace Stackling

/-- A pool of text constants. -/
abbrev Pool := Array Bytes

/-- A pool that is being filled, with an index of its texts: the place of each. -/
structure Interner where
  texts : Pool
  places : List (Bytes × Nat)
  /-- The index has the texts of the pool at their places, and nothing else. -/
  agrees : ∀ text place, places.lookup text = some place ↔ texts[place]? = some text

namespace Interner

/-- A pool without texts. -/
def empty : Interner where
  texts := #[]
  places := []
  agrees := by simp

@[simp] theorem texts_empty : empty.texts = #[] := rfl

/-- A text that is new in the index is new in the pool, so it can be added to both. -/
theorem agrees_push {texts : Pool} {places : List (Bytes × Nat)} {text : Bytes}
    (h : ∀ text place, places.lookup text = some place ↔ texts[place]? = some text)
    (hnew : places.lookup text = none) (other : Bytes) (place : Nat) :
    ((text, texts.size) :: places).lookup other = some place ↔
      (texts.push text)[place]? = some other := by
  rw [List.lookup_cons, Array.getElem?_push]
  by_cases hplace : place = texts.size
  · subst hplace
    by_cases hother : other = text
    · simp [hother]
    · simp [beq_false_of_ne hother, h, Ne.symm hother]
  · by_cases hother : other = text
    · subst hother
      simp [hplace, Ne.symm hplace, ← h, hnew]
    · simp [beq_false_of_ne hother, h, hplace]

/-- The place of a text in the pool, which is extended by texts it lacks. -/
def intern (pool : Interner) (text : Bytes) : Interner × Nat :=
  match h : pool.places.lookup text with
  | some place => (pool, place)
  | none =>
    ({ texts := pool.texts.push text, places := (text, pool.texts.size) :: pool.places
       agrees := agrees_push pool.agrees h }, pool.texts.size)

end Interner

namespace Assemble

/-! ## Errors -/

/-- Why a unit cannot be assembled. -/
inductive Cause where
  | duplicateRoutine (routine : Bytes)
  | duplicateLabel (routine : Bytes) (label : Label)
  | undefinedLabel (routine : Bytes) (label : Label)
  | depth (routine : Bytes) (error : StackDepth.Error)
  | noEntry
  deriving DecidableEq, Repr

/-- The wording of a cause. -/
def Cause.message : Cause → Bytes
  | duplicateRoutine r => ascii "routine " ++ r ++ ascii ": found duplicate routine"
  | duplicateLabel r label =>
    ascii "routine " ++ r ++ ascii ": " ++ label ++ ascii ": found duplicate label"
  | undefinedLabel r label =>
    ascii "routine " ++ r ++ ascii ": " ++ label ++ ascii ": undefined label"
  | depth r error => ascii "routine " ++ r ++ ascii ": " ++ error.message
  | noEntry => ascii "missing entry routine"

/-- A unit that cannot be assembled, and why. -/
structure Error where
  unit : Bytes
  cause : Cause
  deriving DecidableEq, Repr

/-- The wording of an error. -/
def Error.message (e : Error) : Bytes := ascii "unit " ++ e.unit ++ ascii ": " ++ e.cause.message

/-! ## Labels -/

/-- The labels that code defines, in order. -/
def labels (code : List Instruction) : List Label :=
  code.filterMap fun i =>
    match i with
    | .label name => some name
    | _ => none

/-- The first element of a list that also occurs before. -/
def firstRepeat? : List Label → List Label → Option Label
  | _, [] => none
  | seen, l :: ls => if seen.contains l then some l else firstRepeat? (l :: seen) ls

/-- The address of the instruction that follows the label, when `address`
instructions come before the code. -/
def addressFrom? (label : Label) : Nat → List Instruction → Option Nat
  | _, [] => none
  | address, .label name :: code =>
    if name = label then some address else addressFrom? label address code
  | address, _ :: code => addressFrom? label (address + 1) code

/-- The address of the instruction that follows the label. -/
def address? (code : List Instruction) (label : Label) : Option Nat := addressFrom? label 0 code

/-! ## Code -/

/-- Resolve one instruction, or name the label that it lacks. A label resolves
to no code. -/
def resolve (address : Label → Option Nat) (pool : Interner) :
    Instruction → Interner × Except Label (Option Code)
  | .pushInt value => (pool, .ok (some { op := Opcode.pushInt.byte, operand := value }))
  | .pushText text =>
    let (pool, index) := pool.intern text
    (pool, .ok (some { op := Opcode.pushText.byte, kind := .ref, operand := Int32.ofNat index }))
  | .load kind slot => (pool, .ok (some { op := Opcode.load.byte, kind, operand := slot }))
  | .store kind slot => (pool, .ok (some { op := Opcode.store.byte, kind, operand := slot }))
  | .print kind => (pool, .ok (some { op := Opcode.print.byte, kind }))
  | .branch relation target =>
    match address target with
    | some a =>
      (pool, .ok (some { op := Opcode.branch.byte, relation, operand := Int32.ofNat a }))
    | none => (pool, .error target)
  | .jump target =>
    match address target with
    | some a => (pool, .ok (some { op := Opcode.jump.byte, operand := Int32.ofNat a }))
    | none => (pool, .error target)
  | .label _ => (pool, .ok none)
  | other => (pool, .ok (some { op := other.op }))

/-- Resolve code from its first instruction on, up to the first label that is
not defined. -/
def resolveAll (address : Label → Option Nat) (pool : Interner) :
    List Instruction → Interner × Except Label (List Code)
  | [] => (pool, .ok [])
  | i :: is =>
    match resolve address pool i with
    | (pool, .error label) => (pool, .error label)
    | (pool, .ok code?) =>
      match resolveAll address pool is with
      | (pool, .error label) => (pool, .error label)
      | (pool, .ok codes) => (pool, .ok (code?.toList ++ codes))

/-- The number of slots that a routine needs: those it asks for, and those that
its code addresses. -/
def slots (r : Routine) : Int :=
  (r.code.filterMap Instruction.slot?).foldl (fun n slot => max n (slot.toInt + 1)) r.locals

/-- Assemble one routine. -/
def routine (pool : Interner) (r : Routine) : Interner × Except Cause Frame :=
  match firstRepeat? [] (labels r.code) with
  | some label => (pool, .error (.duplicateLabel r.name label))
  | none =>
    match resolveAll (address? r.code) pool r.code with
    | (pool, .error label) => (pool, .error (.undefinedLabel r.name label))
    | (pool, .ok codes) =>
      match StackDepth.compute codes.toArray with
      | .error e => (pool, .error (.depth r.name e))
      | .ok depth =>
        (pool, .ok
          { name := r.name, maxStack := depth, maxLocals := slots r, code := codes.toArray })

/-- Assemble routines in order. The names in `seen` are taken. -/
def routines (seen : List Bytes) (pool : Interner) :
    List Routine → Interner × Except Cause (List Frame)
  | [] => (pool, .ok [])
  | r :: rs =>
    if seen.contains r.name then (pool, .error (.duplicateRoutine r.name))
    else
      match routine pool r with
      | (pool, .error e) => (pool, .error e)
      | (pool, .ok frame) =>
        match routines (r.name :: seen) pool rs with
        | (pool, .error e) => (pool, .error e)
        | (pool, .ok frames) => (pool, .ok (frame :: frames))

end Assemble

namespace AsmUnit

/-- Assemble a unit with a pool that may hold constants already. -/
def assembleWith (pool : Interner) (unit : AsmUnit) : Interner × Except Assemble.Error Module :=
  match Assemble.routines [] pool unit.routines with
  | (pool, .error cause) => (pool, .error { unit := unit.name, cause })
  | (pool, .ok frames) =>
    if frames.any (·.name == entryName) then
      (pool, .ok { name := unit.name, constants := pool.texts, routines := frames })
    else (pool, .error { unit := unit.name, cause := .noEntry })

/-- Assemble a unit on its own. -/
def assemble (unit : AsmUnit) : Except Assemble.Error Module := (unit.assembleWith .empty).2

end AsmUnit

end Stackling
