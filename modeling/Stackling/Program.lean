import Stackling.Arith

/-!
# Programs

The tree of a program text. A tree need not come from a text: nodes may be
missing, an operator may stand where it has no meaning, and the word of a
comparison may be any. Code generation refuses such trees.
-/

namespace Stackling

/-- The operator of a binary expression. -/
inductive Operator where
  | arith (op : Arith)
  /-- A comparison without its comparing word. Texts never give it. -/
  | compare
  deriving DecidableEq, Repr

/-- The sign of an operator. -/
def Operator.sign : Operator → Bytes
  | arith .add => ascii "+"
  | arith .sub => ascii "-"
  | arith .mul => ascii "*"
  | arith .div => ascii "/"
  | compare => ascii "compare"

/-- An expression. Every node has the line that it starts on. -/
inductive Expr where
  | number (line : Int) (value : Int32)
  /-- A text with its quotes. -/
  | text (line : Int) (raw : Bytes)
  | name (line : Int) (name : Bytes)
  /-- An expression in parentheses. -/
  | paren (line : Int) (inner : Expr)
  | binary (line : Int) (op : Operator) (left right : Expr)
  /-- A comparison, which is one or zero. -/
  | comparison (line : Int) (comparator : Bytes) (left right : Expr)
  /-- A node that is not there. -/
  | missing
  deriving DecidableEq, Repr

/-- The line that an expression starts on. -/
def Expr.line : Expr → Int
  | number l _ | text l _ | name l _ | paren l _ | binary l _ _ _ | comparison l _ _ _ => l
  | missing => 0

/-- What decides an `IF` or a `WHILE`: a comparison of two operands. -/
structure Condition where
  line : Int
  left : Expr
  comparator : Bytes
  right : Expr
  deriving DecidableEq, Repr

/-- A statement. -/
inductive Stmt where
  | set (line : Int) (target : Bytes) (value : Expr)
  | print (line : Int) (value : Expr)
  | read (line : Int) (target : Bytes)
  | inc (line : Int) (target : Bytes) (value : Expr)
  /-- A choice; without an `ELSE` the last part is empty. -/
  | choice (line : Int) (condition : Condition) (yes no : List Stmt)
  | loop (line : Int) (condition : Condition) (body : List Stmt)
  /-- A statement that is not there. -/
  | missing
  deriving Repr

/-- A declared name with its type as it is written. -/
structure Declaration where
  typeName : Bytes
  name : Bytes
  line : Int
  deriving DecidableEq, Repr

/-- A program. -/
structure Program where
  name : Bytes
  line : Int
  declarations : List Declaration
  body : List Stmt
  deriving Repr

end Stackling
