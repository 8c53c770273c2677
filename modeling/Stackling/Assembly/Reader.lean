import Stackling.AsmUnit
import Stackling.Input
import Stackling.Text.Blank
import Stackling.Text.LetterCase

/-!
# Reading text assembly

Text assembly holds one instruction a line. A line is read as words between
spaces and tabs; letter case does not matter in keywords, and what follows a
double slash is a comment. A `UNIT` line names the unit and comes before all
else; each `ROUTINE` line starts a routine that the following instructions
belong to.

Reading goes in two passes. The first turns each line into an *item*, or finds
the first line that is wrong. The second groups the items into routines.
-/

namespace Stackling.Assembly

/-! ## Errors -/

/-- What is wrong with a line of text assembly. -/
inductive Cause where
  | unknownInstruction (word : Bytes)
  | beforeUnit
  | outsideRoutine
  | duplicateUnit
  | unitName
  | routineName
  | integerFormat (word : Bytes)
  | negativeLocals (n : Int32)
  | unexpected (text : Bytes)
  | pushKind (word : Bytes)
  | textConstant (text : Bytes)
  | kind (word : Bytes)
  | negativeSlot (n : Int32)
  | relation (word : Bytes)
  | branchLabel
  | label (op : Opcode)
  deriving DecidableEq, Repr

/-- The wording of a cause. -/
def Cause.message : Cause → Bytes
  | unknownInstruction word => ascii "unknown instruction " ++ word
  | beforeUnit => ascii "instruction before UNIT header"
  | outsideRoutine => ascii "instruction outside of a routine"
  | duplicateUnit => ascii "duplicate UNIT header"
  | unitName => ascii "UNIT expects exactly one name"
  | routineName => ascii "ROUTINE expects a name"
  | integerFormat word => ascii "wrong integer format " ++ word
  | negativeLocals n => ascii "negative locals count " ++ Decimal.ofInt32 n
  | unexpected text => ascii "unexpected " ++ text
  | pushKind word => ascii "PUSH expects INT or TEXT, got " ++ word
  | textConstant text => ascii "bad text constant " ++ text
  | kind word => ascii "expect INT or REF, got " ++ word
  | negativeSlot n => ascii "negative slot " ++ Decimal.ofInt32 n
  | relation word => ascii "unknown condition " ++ word
  | branchLabel => ascii "IF expects a label"
  | label op => op.name ++ ascii " expects a label"

/-- Why text assembly could not be read. -/
inductive Error where
  /-- A line is wrong. -/
  | line (number : Nat) (cause : Cause)
  /-- There is no unit. -/
  | missingUnit
  /-- The text could not be read to its end. -/
  | input (message : Bytes)
  deriving DecidableEq, Repr

/-- The wording of an error. -/
def Error.message : Error → Bytes
  | line number cause =>
    ascii "text assembly: syntax error at line " ++ Decimal.ofNat number ++ ascii ": "
      ++ cause.message
  | missingUnit => ascii "text assembly: missing UNIT header"
  | input message => message

/-! ## Words -/

/-- A byte that ends a word: a space or a tab. -/
def isSeparator (b : UInt8) : Bool := b == 32 || b == 9

/-- The first word of a line, and the rest of the line without white space at
its ends. Both are empty on a blank line. -/
def nextWord (line : Bytes) : Bytes × Bytes :=
  let text := Blank.trim line
  (text.takeWhile (!isSeparator ·), Blank.trim (text.dropWhile (!isSeparator ·)))

/-- Whether a text starts a comment. -/
def isComment (text : Bytes) : Bool := (ascii "//").isPrefixOf text

/-- What the first word of a line announces. -/
inductive Keyword where
  | unit
  | routine
  | push
  | load
  | store
  | branch
  | jump
  | label
  | print
  /-- An instruction without operands. -/
  | plain (instruction : Instruction)
  deriving DecidableEq, Repr

/-- The keywords in capitals. -/
def keywords : List (Bytes × Keyword) :=
  [(ascii "UNIT", .unit), (ascii "ROUTINE", .routine), (ascii "PUSH", .push),
    (ascii "LOAD", .load), (ascii "STORE", .store), (ascii "ADD", .plain (.arith .add)),
    (ascii "SUB", .plain (.arith .sub)), (ascii "MUL", .plain (.arith .mul)),
    (ascii "DIV", .plain (.arith .div)), (ascii "IF", .branch), (ascii "GOTO", .jump),
    (ascii "LABEL", .label), (ascii "OUTPUT", .plain .openOutput),
    (ascii "INPUT", .plain .openInput), (ascii "PRINT", .print),
    (ascii "READINT", .plain .readInt), (ascii "READLINE", .plain .readLine),
    (ascii "RETURN", .plain .ret)]

/-- The keyword that a word spells in any letter case. -/
def keyword? (word : Bytes) : Option Keyword := keywords.lookup (LetterCase.upper word)

/-- The kind that a word names in any letter case. -/
def kind? (word : Bytes) : Option Kind :=
  [(ascii "INT", Kind.int), (ascii "REF", Kind.ref)].lookup (LetterCase.upper word)

/-- The relation that a word names in any letter case. -/
def relation? (word : Bytes) : Option Relation :=
  [(ascii "GT", Relation.gt), (ascii "LT", Relation.lt), (ascii "EQ", Relation.eq),
    (ascii "NE", Relation.ne), (ascii "GE", Relation.ge),
    (ascii "LE", Relation.le)].lookup (LetterCase.upper word)

/-! ## Operands -/

/-- Read an integer word; gives the integer and the rest of the line. -/
def readInteger (line : Bytes) : Except Cause (Int32 × Bytes) :=
  let (word, rest) := nextWord line
  match Decimal.toInt32? word with
  | some n => .ok (n, rest)
  | none => .error (.integerFormat word)

/-- An instruction that only a comment may follow. -/
def finish (instruction : Instruction) (rest : Bytes) : Except Cause Instruction :=
  let rest := Blank.trim rest
  if rest = [] ∨ isComment rest then .ok instruction else .error (.unexpected rest)

/-- The operands of a push. -/
def readPush (line : Bytes) : Except Cause Instruction :=
  let (word, rest) := nextWord line
  if LetterCase.upper word = ascii "INT" then do
    let (value, rest) ← readInteger rest
    finish (.pushInt value) rest
  else if LetterCase.upper word = ascii "TEXT" then
    match Quoted.unquote? rest with
    | some text => .ok (.pushText text)
    | none => .error (.textConstant rest)
  else .error (.pushKind word)

/-- The operands of a load or a store. -/
def readSlot (make : Kind → Int32 → Instruction) (line : Bytes) : Except Cause Instruction :=
  let (word, rest) := nextWord line
  match kind? word with
  | none => .error (.kind word)
  | some kind => do
    let (slot, rest) ← readInteger rest
    if slot < 0 then .error (.negativeSlot slot) else finish (make kind slot) rest

/-- The operands of a conditional jump. -/
def readBranch (line : Bytes) : Except Cause Instruction :=
  let (word, rest) := nextWord line
  match relation? word with
  | none => .error (.relation word)
  | some relation =>
    let (target, rest) := nextWord rest
    if target = [] then .error .branchLabel else finish (.branch relation target) rest

/-- The operand of a jump or a label. -/
def readTarget (op : Opcode) (make : Label → Instruction) (line : Bytes) :
    Except Cause Instruction :=
  let (target, rest) := nextWord line
  if target = [] then .error (.label op) else finish (make target) rest

/-- The operand of a print. -/
def readPrint (line : Bytes) : Except Cause Instruction :=
  let (word, rest) := nextWord line
  match kind? word with
  | none => .error (.kind word)
  | some kind => finish (.print kind) rest

/-! ## Lines -/

/-- What a line contributes. -/
inductive Item where
  | unit (name : Bytes)
  | routine (name : Bytes) (locals : Int32)
  | code (instruction : Instruction)
  deriving DecidableEq, Repr

/-- The name on a `UNIT` line. -/
def readUnit (line : Bytes) : Except Cause Item :=
  let (name, rest) := nextWord line
  if name = [] ∨ rest ≠ [] then .error .unitName else .ok (.unit name)

/-- The name and the number of slots on a `ROUTINE` line. -/
def readRoutine (line : Bytes) : Except Cause Item :=
  let (name, rest) := nextWord line
  if name = [] then .error .routineName
  else do
    let (locals, rest) ← readInteger rest
    if locals < 0 then .error (.negativeLocals locals)
    else if rest ≠ [] then .error (.unexpected rest)
    else .ok (.routine name locals)

/-- The instruction that a keyword announces and the rest of its line spells. -/
def readInstruction (keyword : Keyword) (line : Bytes) : Except Cause Instruction :=
  match keyword with
  | .push => readPush line
  | .load => readSlot .load line
  | .store => readSlot .store line
  | .branch => readBranch line
  | .jump => readTarget .jump .jump line
  | .label => readTarget .label .label line
  | .print => readPrint line
  | .plain instruction => finish instruction line
  -- `readLine` never asks for the instruction of these two
  | .unit | .routine => .error (.unexpected line)

/-- How much of a unit has been read: nothing, its name, or a routine. -/
inductive Progress where
  | start
  | named
  | inRoutine
  deriving DecidableEq, Repr

/-- The progress after an item. -/
def Progress.after (progress : Progress) : Item → Progress
  | .unit _ => .named
  | .routine _ _ => .inRoutine
  | .code _ => progress

/-- Read a line, which may be blank. -/
def readLine (progress : Progress) (line : Bytes) : Except Cause (Option Item) :=
  let (word, rest) := nextWord line
  if word = [] ∨ isComment word then .ok none
  else
    match keyword? word with
    | none => .error (.unknownInstruction word)
    | some .unit =>
      if progress = .start then some <$> readUnit rest else .error .duplicateUnit
    | some .routine =>
      if progress = .start then .error .beforeUnit else some <$> readRoutine rest
    | some keyword =>
      match progress with
      | .start => .error .beforeUnit
      | .named => .error .outsideRoutine
      | .inRoutine => (fun i => some (.code i)) <$> readInstruction keyword rest

/-- Read lines, the first of which has the given number. -/
def readLines (progress : Progress) (number : Nat) : List Bytes → Except Error (List Item)
  | [] => .ok []
  | line :: lines =>
    match readLine progress line with
    | .error cause => .error (.line number cause)
    | .ok none => readLines progress (number + 1) lines
    | .ok (some item) => do
      let items ← readLines (progress.after item) (number + 1) lines
      .ok (item :: items)

/-! ## Units -/

/-- Group items into routines. The first component holds the instructions that
precede the first routine. -/
def group (items : List Item) : List Instruction × List Routine :=
  items.foldr
    (fun item acc =>
      match item with
      | .unit _ => acc
      | .routine name locals => ([], { name, locals := locals.toInt, code := acc.1 } :: acc.2)
      | .code instruction => (instruction :: acc.1, acc.2))
    ([], [])

/-- The name of the unit that items describe. -/
def unitName? (items : List Item) : Option Bytes :=
  items.findSome? fun item =>
    match item with
    | .unit name => some name
    | _ => none

/-- Read text assembly. -/
def read (input : Input) : Except Error AsmUnit := do
  let items ← readLines .start 1 input.lines
  match input.failure with
  | some message => .error (.input message)
  | none =>
    match unitName? items with
    | some name => .ok { name, routines := (group items).2 }
    | none => .error .missingUnit

end Stackling.Assembly
