import Stackling.AsmUnit
import Stackling.Program
import Stackling.SymbolTable

/-!
# The code of programs

Symbolic code for the tree of a program. A variable lives in the slot of its
declaration, and every `READ` gets a slot of its own for its handle. Labels are
numbered in one sequence, so no two of a program are equal.

Each function gives the code of its part, or the first rule that the part
breaks in the order in which code is made.
-/

namespace Stackling

/-- A tree that no program text gives. -/
inductive TreeError where
  | expression (e : Expr)
  | operand (e : Expr)
  | printed (e : Expr)
  | operator (op : Operator)
  | statement
  deriving DecidableEq, Repr

/-- Why no code can be made. -/
inductive CompileError where
  | semantic (e : SemanticError)
  | tree (e : TreeError)
  deriving DecidableEq, Repr

/-- The name of an expression's node. -/
def Expr.nodeName : Expr → Bytes
  | number _ _ => ascii "*internal.NumberLiteralAst"
  | text _ _ => ascii "*internal.StringLiteralAst"
  | name _ _ => ascii "*internal.IdentifierAst"
  | paren _ _ => ascii "*internal.SubExpressionAst"
  | binary _ _ _ _ => ascii "*internal.BinaryExpressionAst"
  | comparison _ _ _ _ => ascii "*internal.ComparisonAst"
  | missing => ascii "<nil>"

/-- The wording of an error. -/
def TreeError.message : TreeError → Bytes
  | expression e => ascii "unknown expression " ++ e.nodeName ++ ascii ": internal compiler error"
  | operand e => ascii "unknown operand " ++ e.nodeName ++ ascii ": internal compiler error"
  | printed e => ascii "cannot print " ++ e.nodeName ++ ascii ": internal compiler error"
  | operator op =>
    ascii "unknown arithmetic operator " ++ op.sign ++ ascii ": internal compiler error"
  | statement => ascii "unknown statement <nil>: internal compiler error"

/-- The wording of an error. -/
def CompileError.message : CompileError → Bytes
  | semantic e => e.message
  | tree e => e.message

/-- The relation of a comparing word. -/
def Relation.ofComparator? (comparator : Bytes) : Option Relation :=
  if comparator = ascii ">" then some gt
  else if comparator = ascii "<" then some lt
  else if comparator = ascii "=" then some eq
  else if comparator = ascii "<>" then some ne
  else none

/-- The relation to branch on: that of a comparing word, or its negation when
the branch is to be taken if the comparison fails. -/
def Relation.ofComparator (comparator : Bytes) (ifHolds : Bool) (line : Int) :
    Except SemanticError Relation :=
  match ofComparator? comparator with
  | some r => .ok (if ifHolds then r else r.negate)
  | none => .error { cause := .unknownComparator comparator, line }

/-- A text without its first and last byte. -/
def stripQuotes (raw : Bytes) : Bytes := raw.tail.dropLast

namespace SymbolTable

/-- The variable of a name that is used on the given line. -/
def resolve (table : SymbolTable) (name : Bytes) (line : Int) : Except CompileError Variable :=
  (table.lookup name line).mapError .semantic

end SymbolTable

namespace Variable

/-- The slot of a variable as a machine integer. -/
def slot32 (v : Variable) : Int32 := Int32.ofInt v.slot

/-- Push the value of a variable. -/
def load (v : Variable) : Instruction := .load v.type.kind v.slot32

/-- Pop into a variable. -/
def store (v : Variable) : Instruction := .store v.type.kind v.slot32

end Variable

/-- Code that leaves the value of an expression on the stack, when labels from
`label` on are free, and the next free label. -/
def Expr.code (table : SymbolTable) (label : Nat) :
    Expr → Except CompileError (List Instruction × Nat)
  | number _ value => .ok ([.pushInt value], label)
  | text _ raw => .ok ([.pushText (stripQuotes raw)], label)
  | name line x => do
    let v ← table.resolve x line
    .ok ([v.load], label)
  | paren _ inner => inner.code table label
  | binary _ (.arith op) left right => do
    let (leftCode, label) ← left.code table label
    let (rightCode, label) ← right.code table label
    .ok (leftCode ++ rightCode ++ [.arith op], label)
  | binary _ .compare _ _ => .error (.tree (.operator .compare))
  | comparison line comparator left right => do
    let relation ← (Relation.ofComparator comparator true line).mapError .semantic
    let (leftCode, label) ← left.code table label
    let (rightCode, label) ← right.code table label
    let yes := Label.numbered (ascii "cmp_true") label
    let done := Label.numbered (ascii "cmp_end") (label + 1)
    .ok (leftCode ++ rightCode
      ++ [.branch relation yes, .pushInt 0, .jump done, .label yes, .pushInt 1, .label done],
      label + 2)
  | missing => .error (.tree (.expression .missing))

/-- Code that pushes an operand of a condition. A variable is taken for an
integer. -/
def Expr.operandCode (table : SymbolTable) : Expr → Except CompileError Instruction
  | number _ value => .ok (.pushInt value)
  | name line x => do
    let v ← table.resolve x line
    .ok (.load .int v.slot32)
  | e => .error (.tree (.operand e))

/-- Code that goes to the target if a condition holds, or if it fails. -/
def Condition.code (table : SymbolTable) (c : Condition) (ifHolds : Bool) (target : Label) :
    Except CompileError (List Instruction) := do
  let relation ← (Relation.ofComparator c.comparator ifHolds c.line).mapError .semantic
  let left ← c.left.operandCode table
  let right ← c.right.operandCode table
  .ok [left, right, .branch relation target]

/-- What a program has not used up yet. -/
structure Supply where
  /-- The next free label. -/
  label : Nat := 0
  /-- The next free slot. -/
  slot : Nat := 0
  deriving DecidableEq, Repr

mutual

/-- The code of a statement and what is left of the supply. -/
def Stmt.code (table : SymbolTable) (supply : Supply) :
    Stmt → Except CompileError (List Instruction × Supply)
  | .set line target value => do
    let v ← table.resolve target line
    match value with
    | .text _ raw => .ok ([.pushText (stripQuotes raw), .store .ref v.slot32], supply)
    | value =>
      let (code, label) ← value.code table supply.label
      .ok (code ++ [v.store], { supply with label })
  | .print _ (.name line name) => do
    let v ← table.resolve name line
    .ok ([.openOutput, v.load, .print v.type.kind], supply)
  | .print _ (.text _ raw) =>
    .ok ([.openOutput, .pushText (stripQuotes raw), .print .ref], supply)
  | .print _ e => .error (.tree (.printed e))
  | .read line target => do
    let v ← table.resolve target line
    let handle := Int32.ofNat supply.slot
    .ok ([.openInput, .store .ref handle, .load .ref handle,
      if v.type = .text then .readLine else .readInt, v.store],
      { supply with slot := supply.slot + 1 })
  | .inc line target value => do
    let v ← table.resolve target line
    let (code, label) ← value.code table supply.label
    .ok (code ++ [.store .int v.slot32], { supply with label })
  | .choice _ condition yes no => do
    let thenLabel := Label.numbered (ascii "if_then") supply.label
    let endLabel := Label.numbered (ascii "if_end") (supply.label + 1)
    let test ← condition.code table true thenLabel
    let (noCode, supply) ← Stmt.codeAll table { supply with label := supply.label + 2 } no
    let (yesCode, supply) ← Stmt.codeAll table supply yes
    .ok (test ++ noCode ++ [.jump endLabel, .label thenLabel] ++ yesCode ++ [.label endLabel],
      supply)
  | .loop _ condition body => do
    let beginLabel := Label.numbered (ascii "while_begin") supply.label
    let exitLabel := Label.numbered (ascii "while_exit") (supply.label + 1)
    let test ← condition.code table false exitLabel
    let (bodyCode, supply) ← Stmt.codeAll table { supply with label := supply.label + 2 } body
    .ok (.label beginLabel :: test ++ bodyCode ++ [.jump beginLabel, .label exitLabel], supply)
  | .missing => .error (.tree .statement)

/-- The code of statements in a row. -/
def Stmt.codeAll (table : SymbolTable) (supply : Supply) :
    List Stmt → Except CompileError (List Instruction × Supply)
  | [] => .ok ([], supply)
  | stmt :: stmts => do
    let (code, supply) ← stmt.code table supply
    let (more, supply) ← Stmt.codeAll table supply stmts
    .ok (code ++ more, supply)

end

/-- A program's symbolic code and its variables. -/
structure Compiled where
  unit : AsmUnit
  symbols : SymbolTable
  /-- How many slots are in use. -/
  slots : Nat
  deriving DecidableEq, Repr

namespace Program

/-- Declare variables in slots from `slot` on. -/
def declareAll (table : SymbolTable) (slot : Nat) :
    List Declaration → Except SemanticError SymbolTable
  | [] => .ok table
  | d :: ds => do
    let (_, table) ← table.declare d.name d.typeName slot d.line
    declareAll table (slot + 1) ds

/-- The symbol table of a program. -/
def symbols (p : Program) : Except SemanticError SymbolTable := declareAll {} 0 p.declarations

/-- Make the code of a program: one routine that ends with a return, in which the
variables have the first slots. -/
def compile (p : Program) : Except CompileError Compiled := do
  let table ← p.symbols.mapError .semantic
  let (code, supply) ← Stmt.codeAll table { slot := p.declarations.length } p.body
  let entry := { name := entryName, locals := supply.slot, code := code ++ [.ret] }
  .ok { unit := { name := p.name, routines := [entry] }, symbols := table, slots := supply.slot }

end Program

end Stackling
