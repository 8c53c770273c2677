import Stackling.Program

/-!
# Chains of terms

An expression is read as a chain: terms with operators between them, so that
the operator at a place stands right after the term at that place. A chain is
folded into one expression from left to right. The right operand of an operator
is folded first, as far as operators bind tighter; then the operator takes its
two operands, and the result stands where the last of its terms stood, before
the operator that comes next.
-/

namespace Stackling.Chain

/-! ## Folding -/

/-- How far a chain of `n` operators has been folded. -/
structure Folded (α : Type) (n : Nat) where
  /-- The operand that was folded last. -/
  operand : α
  /-- The place of the first operator that was not taken. -/
  place : Fin (n + 1)
  /-- The terms, among which the operand stands at that place. -/
  terms : Vector α (n + 1)

section Fold

variable {ω α : Type} {n : Nat} (join : α → ω → α → α) (priority : ω → Nat) (ops : Vector ω n)

/-- There is an operator at a place, and it binds at least as tight as `low`. -/
structure Binds (low : Nat) (i : Fin (n + 1)) : Prop where
  lt : i.val < n
  tight : low ≤ priority ops[i.val]

instance (low : Nat) (i : Fin (n + 1)) : Decidable (Binds priority ops low i) :=
  if hlt : i.val < n then
    if htight : low ≤ priority ops[i.val] then isTrue ⟨hlt, htight⟩
    else isFalse fun h => htight h.tight
  else isFalse fun h => hlt h.lt

mutual

/-- Fold from place `i` on, where `left` stands, while operators bind at least as
tight as `low`. -/
def climb (low : Nat) (left : α) (i : Fin (n + 1)) (terms : Vector α (n + 1)) :
    { f : Folded α n // i ≤ f.place ∧ (Binds priority ops low i → i < f.place) } :=
  if h : Binds priority ops low i then
    have hlt := h.lt
    match climbRight (priority ops[i.val] + 1) terms[i.val + 1] ⟨i.val + 1, by omega⟩ terms with
    | ⟨right, hright⟩ =>
      have hright : i.val + 1 ≤ right.place.val := hright
      let left := join left ops[i.val] right.operand
      match climb low left right.place (right.terms.set right.place left) with
      | ⟨all, hall⟩ =>
        have hlt : i < all.place := Fin.lt_of_lt_of_le hright hall.1
        ⟨all, Fin.le_of_lt hlt, fun _ => hlt⟩
  else ⟨⟨left, i, terms⟩, Fin.le_refl i, fun hbinds => absurd hbinds h⟩
termination_by 2 * (n - i.val)

/-- Fold a right operand that starts at place `i`, while operators bind at least
as tight as `low`. Each of them folds all that binds as tight as it does. -/
def climbRight (low : Nat) (right : α) (i : Fin (n + 1)) (terms : Vector α (n + 1)) :
    { f : Folded α n // i ≤ f.place } :=
  if h : Binds priority ops low i then
    have hlt := h.lt
    match climb (priority ops[i.val]) terms[i.val] i terms with
    | ⟨inner, hinner⟩ =>
      have hlt : i.val < inner.place.val := hinner.2 ⟨h.lt, Nat.le_refl _⟩
      match climbRight low inner.operand inner.place inner.terms with
      | ⟨all, hall⟩ => ⟨all, Fin.le_trans hinner.1 hall⟩
  else ⟨⟨right, i, terms⟩, Fin.le_refl i⟩
termination_by 2 * (n - i.val) + 1

end

/-- The term that a chain starts with. -/
def firstTerm (terms : Vector α (n + 1)) : α := terms[0]

/-- Fold the chain of the given operators and of the terms that are at hand. It is
folded on a copy of the terms, so they stay as they are. -/
def fold : StateM (Vector α (n + 1)) α := do
  let terms ← get
  return (climb join priority ops 0 (firstTerm terms) 0 terms).val.operand

end Fold

/-! ## Expressions -/

/-- An operator between two terms. -/
inductive Link where
  | arith (op : Arith)
  | compare (comparator : Bytes)
  deriving DecidableEq, Repr

namespace Link

/-- How tightly an operator binds: products most, then sums, then comparisons. -/
def priority : Link → Nat
  | arith .mul | arith .div => 2
  | arith .add | arith .sub => 1
  | compare _ => 0

/-- The expression that an operator makes of two others. It starts where its
left operand starts. -/
def join (left : Expr) (link : Link) (right : Expr) : Expr :=
  match link with
  | arith op => .binary left.line (.arith op) left right
  | compare comparator => .comparison left.line comparator left right

end Link

/-- The expression of a chain. -/
def expr (first : Expr) (rest : List (Link × Expr)) : Expr :=
  let ops : Vector Link rest.length :=
    ⟨(rest.map Prod.fst).toArray, by rw [List.size_toArray, List.length_map]⟩
  let terms : Vector Expr (rest.length + 1) :=
    ⟨(first :: rest.map Prod.snd).toArray, by
      rw [List.size_toArray, List.length_cons, List.length_map]⟩
  ((fold Link.join Link.priority ops).run terms).run.1

end Stackling.Chain
