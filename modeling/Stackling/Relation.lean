import Stackling.Text.Decimal

/-!
# Relations and kinds

The two one-byte qualifiers of an instruction. A *relation* is what a
conditional jump tests of two integers. A *kind* tells whether a load, store or
print is about an integer or about a reference. Both are kept as the byte that
stands for them, since an instruction that nobody has checked may carry any
byte: a byte without a meaning names a relation that never holds, and a kind
that reads as an integer.
-/

namespace Stackling

/-- A relation between two integers. -/
structure Relation where
  /-- The byte that stands for the relation. -/
  byte : UInt8
  deriving DecidableEq, Repr

namespace Relation

/-- Greater than. -/
def gt : Relation := ⟨0⟩

/-- Less than. -/
def lt : Relation := ⟨1⟩

/-- Equal. -/
def eq : Relation := ⟨2⟩

/-- Not equal. -/
def ne : Relation := ⟨3⟩

/-- Greater or equal. -/
def ge : Relation := ⟨4⟩

/-- Less or equal. -/
def le : Relation := ⟨5⟩

/-- Whether the byte stands for one of the six relations. -/
def isKnown (r : Relation) : Bool := r.byte ≤ 5

/-- The word for a relation; a byte without a meaning is shown by its number. -/
def name (r : Relation) : Bytes :=
  match r.byte with
  | 0 => ascii "GT"
  | 1 => ascii "LT"
  | 2 => ascii "EQ"
  | 3 => ascii "NE"
  | 4 => ascii "GE"
  | 5 => ascii "LE"
  | b => ascii "COND(" ++ Decimal.ofNat b.toNat ++ ascii ")"

/-- The relation that holds exactly when the given one does not. -/
def negate (r : Relation) : Relation :=
  match r.byte with
  | 0 => le
  | 1 => ge
  | 2 => ne
  | 3 => eq
  | 4 => lt
  | _ => gt

/-- Whether two integers are related. -/
def holds (r : Relation) (a b : Int32) : Bool :=
  match r.byte with
  | 0 => b < a
  | 1 => a < b
  | 2 => a == b
  | 3 => a != b
  | 4 => b ≤ a
  | 5 => a ≤ b
  | _ => false

end Relation

/-- What a load, store or print is about. -/
structure Kind where
  /-- The byte that stands for the kind. -/
  byte : UInt8
  deriving DecidableEq, Repr

namespace Kind

/-- An integer. -/
def int : Kind := ⟨0⟩

/-- A reference: a text or a handle. -/
def ref : Kind := ⟨1⟩

/-- Whether the byte stands for one of the two kinds. -/
def isKnown (k : Kind) : Bool := k.byte ≤ 1

/-- The word for a kind. -/
def name (k : Kind) : Bytes := if k = ref then ascii "REF" else ascii "INT"

end Kind

end Stackling
