import Mathlib.Logic.Function.Basic
import Stackling.Machine.Scan
import Stackling.Program.Code
import Stackling.Proofs.Machine.Kind

/-!
# What programs mean

The meaning of a program is given by the tree alone: no code, no stack, no
slots. Names stand for integers and texts, numbers are mathematical integers
that are brought back into 32 bits, and the input is a string of bytes.

* **expressions** — `Expr.eval`: the left operand, the right operand, then the
  operator, which looks at its operands only when it has both;
* **input** — `Datum.read`: what a `READ` takes from the bytes that are unread;
* **statements** — `Exec`: statements in a row take a world to a world, or to
  the error that stops them. A program that runs for ever has no execution.
-/

namespace Stackling

/-! ## Values -/

/-- What a name may stand for. -/
inductive Datum where
  | int (n : Int32)
  | text (bytes : Bytes)
  deriving DecidableEq, Repr

/-- A value as it is printed. -/
def Datum.render : Datum → Bytes
  | int n => Decimal.ofInt32 n
  | text bytes => bytes

/-- The integers that two values are, which both have to be. -/
def Datum.ints : Datum → Datum → Except ErrorKind (Int × Int)
  | int a, int b => .ok (a.toInt, b.toInt)
  | _, _ => .error .typeMismatch

/-- The result of an operation before it is brought back into 32 bits. A quotient
is cut toward zero; there is none by zero. -/
def Arith.unwrapped? : Arith → Int → Int → Option Int
  | add, a, b => some (a + b)
  | sub, a, b => some (a - b)
  | mul, a, b => some (a * b)
  | div, a, b => if b = 0 then none else some (a.tdiv b)

/-- An operation on two values. -/
def Arith.eval (op : Arith) (a b : Datum) : Except ErrorKind Datum := do
  let (m, n) ← a.ints b
  match op.unwrapped? m n with
  | some result => .ok (.int (.ofInt result))
  | none => .error .divisionByZero

/-- What a comparing word says of two integers. -/
def Comparator.holds? (word : Bytes) (m n : Int) : Option Bool :=
  if word = ascii ">" then some (n < m)
  else if word = ascii "<" then some (m < n)
  else if word = ascii "=" then some (m = n)
  else if word = ascii "<>" then some (m ≠ n)
  else none

/-- A comparison of two values. -/
def Comparator.eval (word : Bytes) (a b : Datum) : Except ErrorKind Bool := do
  let (m, n) ← a.ints b
  match holds? word m n with
  | some result => .ok result
  | none => .error .internal

/-! ## Expressions -/

/-- The values of the names that have one. -/
abbrev Env := Bytes → Option Datum

/-- The value of an expression. -/
def Expr.eval (env : Env) : Expr → Except ErrorKind Datum
  | number _ value => .ok (.int value)
  | text _ raw => .ok (.text (stripQuotes raw))
  | name _ x =>
    match env x with
    | some d => .ok d
    | none => .error .uninitialized
  | paren _ inner => inner.eval env
  | binary _ (.arith op) left right => do
    let a ← left.eval env
    let b ← right.eval env
    op.eval a b
  | comparison _ comparator left right => do
    let a ← left.eval env
    let b ← right.eval env
    let holds ← Comparator.eval comparator a b
    .ok (.int (if holds then 1 else 0))
  | binary _ .compare _ _ | missing => .error .internal

/-- Whether a condition holds. -/
def Condition.eval (env : Env) (c : Condition) : Except ErrorKind Bool := do
  let a ← c.left.eval env
  let b ← c.right.eval env
  Comparator.eval c.comparator a b

/-! ## Statements -/

/-- What statements work on. -/
structure World where
  env : Env := fun _ => none
  /-- The input that is still unread. -/
  unread : Bytes
  printed : Bytes := []

/-- Give a name a value. -/
def World.assign (w : World) (x : Bytes) (d : Datum) : World :=
  { w with env := Function.update w.env x (some d) }

/-- Print a value on a line of its own. -/
def World.print (w : World) (d : Datum) : World :=
  { w with printed := w.printed ++ (d.render ++ [Bytes.newline]) }

/-- What reading a value of a type yields, and the bytes that are unread after
it. An integer is the next word between white space. A line goes up to the next
newline, which is read with it; it may lack a newline only at the end. -/
def Datum.read : VarType → Bytes → Except ErrorKind (Datum × Bytes)
  | .integer, unread =>
    let text := unread.dropWhile Bytes.isSpace
    match Decimal.toInt32? (text.takeWhile fun b => !Bytes.isSpace b) with
    | some n => .ok (.int n, text.dropWhile fun b => !Bytes.isSpace b)
    | none => .error .badInput
  | .text, unread =>
    let line := unread.takeWhile fun b => b != Bytes.newline
    if unread = [] then .error .badInput
    else .ok (.text (if line.getLast? = some 13 then line.dropLast else line),
      (unread.dropWhile fun b => b != Bytes.newline).tail)

/-- The effect of a statement that has no statements in it, when names have the
given types. -/
def Stmt.act? (types : Bytes → Option VarType) (w : World) : Stmt → Option (Except ErrorKind World)
  | .set _ x e | .inc _ x e => some do
    let d ← e.eval w.env
    .ok (w.assign x d)
  | .print _ e => some do
    let d ← e.eval w.env
    .ok (w.print d)
  | .read _ x =>
    match types x with
    | some type => some do
      let (d, unread) ← Datum.read type w.unread
      .ok ({ w with unread }.assign x d)
    | none => some (.error .internal)
  | .missing => some (.error .internal)
  | .choice _ _ _ _ | .loop _ _ _ => none

/-- `Exec types w stmts w' r`: the statements take the world `w` to `w'`, where
they have come to their end if `r` is none, and are stopped by an error of the
kind `r` otherwise. A statement that is stopped has changed nothing. -/
inductive Exec (types : Bytes → Option VarType) :
    World → List Stmt → World → Option ErrorKind → Prop
  | nil {w : World} : Exec types w [] w none
  | act {w w₁ w' : World} {s : Stmt} {rest : List Stmt} {r : Option ErrorKind}
      (effect : s.act? types w = some (.ok w₁)) (next : Exec types w₁ rest w' r) :
      Exec types w (s :: rest) w' r
  | actFails {w : World} {s : Stmt} {rest : List Stmt} {k : ErrorKind}
      (effect : s.act? types w = some (.error k)) : Exec types w (s :: rest) w (some k)
  | choice {w w₁ w' : World} {line : Int} {c : Condition} {yes no rest : List Stmt} {b : Bool}
      {r : Option ErrorKind} (test : c.eval w.env = .ok b)
      (part : Exec types w (if b then yes else no) w₁ none) (next : Exec types w₁ rest w' r) :
      Exec types w (.choice line c yes no :: rest) w' r
  | partFails {w w' : World} {line : Int} {c : Condition} {yes no rest : List Stmt} {b : Bool}
      {k : ErrorKind} (test : c.eval w.env = .ok b)
      (part : Exec types w (if b then yes else no) w' (some k)) :
      Exec types w (.choice line c yes no :: rest) w' (some k)
  | choiceFails {w : World} {line : Int} {c : Condition} {yes no rest : List Stmt} {k : ErrorKind}
      (test : c.eval w.env = .error k) : Exec types w (.choice line c yes no :: rest) w (some k)
  | loopEnds {w w' : World} {line : Int} {c : Condition} {body rest : List Stmt}
      {r : Option ErrorKind} (test : c.eval w.env = .ok false) (next : Exec types w rest w' r) :
      Exec types w (.loop line c body :: rest) w' r
  | loopAgain {w w₁ w' : World} {line : Int} {c : Condition} {body rest : List Stmt}
      {r : Option ErrorKind} (test : c.eval w.env = .ok true) (part : Exec types w body w₁ none)
      (next : Exec types w₁ (.loop line c body :: rest) w' r) :
      Exec types w (.loop line c body :: rest) w' r
  | bodyFails {w w' : World} {line : Int} {c : Condition} {body rest : List Stmt} {k : ErrorKind}
      (test : c.eval w.env = .ok true) (part : Exec types w body w' (some k)) :
      Exec types w (.loop line c body :: rest) w' (some k)
  | loopFails {w : World} {line : Int} {c : Condition} {body rest : List Stmt} {k : ErrorKind}
      (test : c.eval w.env = .error k) : Exec types w (.loop line c body :: rest) w (some k)

namespace Program

/-- The type that a name is declared with. -/
def typeOf? (p : Program) (x : Bytes) : Option VarType :=
  (p.declarations.find? fun d => d.name == x).bind fun d => VarType.ofName? d.typeName

/-- A program with the given input comes to an end in the world `w`, with the
outcome `r`. No name has a value when it starts. -/
def Runs (p : Program) (input : Bytes) (w : World) (r : Option ErrorKind) : Prop :=
  Exec p.typeOf? { unread := input } p.body w r

end Program

end Stackling
