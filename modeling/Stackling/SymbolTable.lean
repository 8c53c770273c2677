import Stackling.Relation

/-!
# Symbol tables

A program has one flat scope. A symbol table lists its variables in the order
of their declarations; no two have the same name.
-/

namespace Stackling

/-- The type of a variable. -/
inductive VarType where
  | integer
  | text
  deriving DecidableEq, Repr

namespace VarType

/-- How a type is spelled. -/
def name : VarType → Bytes
  | integer => ascii "INTEGER"
  | text => ascii "STRING"

/-- The type that a word spells. -/
def ofName? (word : Bytes) : Option VarType :=
  if word = integer.name then some integer
  else if word = text.name then some text
  else none

/-- How variables of a type are loaded, stored and printed. -/
def kind : VarType → Kind
  | integer => .int
  | text => .ref

end VarType

/-- A declared name and the slot that holds its value. -/
structure Variable where
  name : Bytes
  type : VarType
  slot : Int
  /-- The line of the declaration. -/
  line : Int
  deriving DecidableEq, Repr

/-- A rule of the language that a program breaks. -/
inductive SemanticCause where
  | undeclared (name : Bytes)
  /-- The name was already declared on the given line. -/
  | duplicate (name : Bytes) (first : Int)
  | unsupportedType (typeName name : Bytes)
  | unknownComparator (comparator : Bytes)
  deriving DecidableEq, Repr

namespace SemanticCause

/-- The words for a cause. -/
def kindName : SemanticCause → Bytes
  | undeclared _ => ascii "undeclared variable"
  | duplicate _ _ => ascii "duplicate declaration"
  | unsupportedType _ _ => ascii "unsupported type"
  | unknownComparator _ => ascii "unknown comparator"

/-- What a cause is about. -/
def subject : SemanticCause → Bytes
  | undeclared name => name
  | duplicate name first =>
    name ++ ascii " (first declared at line " ++ Decimal.ofInt first ++ ascii ")"
  | unsupportedType typeName name => typeName ++ ascii " of " ++ name
  | unknownComparator comparator => comparator

end SemanticCause

/-- A broken rule and the line that breaks it. -/
structure SemanticError where
  cause : SemanticCause
  line : Int
  deriving DecidableEq, Repr

/-- The wording of an error. -/
def SemanticError.message (e : SemanticError) : Bytes :=
  ascii "semantic error at line " ++ Decimal.ofInt e.line ++ ascii ": " ++ e.cause.kindName
    ++ ascii " " ++ e.cause.subject

/-- The variables of a program. -/
structure SymbolTable where
  /-- The variables in the order of their declarations. -/
  vars : List Variable := []
  deriving DecidableEq, Repr

namespace SymbolTable

/-- The variable of a name. -/
def find? (table : SymbolTable) (name : Bytes) : Option Variable :=
  table.vars.find? fun v => v.name == name

/-- Add a variable. The type has to be one of the language's, and the name new. -/
def declare (table : SymbolTable) (name typeName : Bytes) (slot line : Int) :
    Except SemanticError (Variable × SymbolTable) :=
  match VarType.ofName? typeName with
  | none => .error { cause := .unsupportedType typeName name, line }
  | some type =>
    match table.find? name with
    | some previous => .error { cause := .duplicate name previous.line, line }
    | none =>
      let v := { name, type, slot, line }
      .ok (v, { vars := table.vars ++ [v] })

/-- The variable of a name that is used on the given line. -/
def lookup (table : SymbolTable) (name : Bytes) (line : Int) : Except SemanticError Variable :=
  match table.find? name with
  | some v => .ok v
  | none => .error { cause := .undeclared name, line }

end SymbolTable

end Stackling
