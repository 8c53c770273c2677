import Stackling.Proofs.Program.Chain

/-!
# Folding gives the ordered tree

Folding a chain works on terms in place: an operand that was folded stands where
its last term stood, and the terms after it are still those of the chain
(`Stands`). One round of folding puts an operator over the operand before it and
the folded operand after it, which keeps the tree of the operand ordered, so

* **rounds** — folding goes on to an ordered tree of the chain up to the first
  operator that binds too loosely (`reaches`);
* **chains** — what is folded from a whole chain is the value of its ordered tree
  (`fold_run`), and the terms stay as they were;
* **expressions** — every operator gets the line of the first term of its part
  (`Tree.eval_join`).
-/

namespace Stackling.Chain

section Fold

variable {ω α : Type} {n : Nat} {join : α → ω → α → α} {priority : ω → Nat} {ops : Vector ω n}
  {given : Vector α (n + 1)}

/-- The value of a tree. -/
def Tree.eval (join : α → ω → α → α) : Tree ω α → α
  | leaf term => term
  | node left op right => join (left.eval join) op (right.eval join)

/-- The operators of a chain, each with the term that follows it. -/
def links (ops : Vector ω n) (terms : Vector α (n + 1)) : List (ω × α) :=
  ops.toList.zip terms.toList.tail

theorem links_drop (ops : Vector ω n) (terms : Vector α (n + 1)) {i : Nat} (h : i < n) :
    (links ops terms).drop i = (ops[i], terms[i + 1]) :: (links ops terms).drop (i + 1) := by
  have hlength : i < (links ops terms).length := by simp [links, h]
  rw [List.drop_eq_getElem_cons hlength]
  simp [links]

/-- A tree is what folding the given terms has come to: its value stands at the
place that was reached, the terms after it are still the given ones, and the
next operator binds no tighter than those of the tree. -/
structure Stands (join : α → ω → α → α) (priority : ω → Nat) (ops : Vector ω n)
    (given : Vector α (n + 1)) (t : Tree ω α) (f : Folded α n) : Prop where
  value : t.eval join = f.operand
  placed : f.terms[f.place.val] = f.operand
  later : ∀ (k : Nat) (hk : k < n + 1), f.place.val < k → f.terms[k] = given[k]
  next : ∀ h : f.place.val < n, t.Ordered priority (priority ops[f.place.val])

/-- Folding goes on from a tree at place `i` to an ordered tree of what comes
next, up to an operator that binds less tight than `low`. -/
def Reaches (join : α → ω → α → α) (priority : ω → Nat) (ops : Vector ω n)
    (given : Vector α (n + 1)) (low : Nat) (t : Tree ω α) (i : Fin (n + 1)) (f : Folded α n) :
    Prop :=
  ∃ t' : Tree ω α, Stands join priority ops given t' f ∧ t'.Ordered priority low ∧
    t'.first = t.first ∧
    t'.more ++ (links ops given).drop f.place.val = t.more ++ (links ops given).drop i.val ∧
    ¬ Binds priority ops low f.place

/-- An operator takes the operands on both sides of it. -/
theorem Stands.node {t r : Tree ω α} {left : α} {i : Fin (n + 1)} {terms : Vector α (n + 1)}
    {right : Folded α n} (h : Stands join priority ops given t ⟨left, i, terms⟩) (hlt : i.val < n)
    (hr : Stands join priority ops given r right)
    (hordered : r.Ordered priority (priority ops[i.val] + 1))
    (hstop : ¬ Binds priority ops (priority ops[i.val] + 1) right.place) :
    Stands join priority ops given (.node t ops[i.val] r)
      ⟨join left ops[i.val] right.operand, right.place,
        right.terms.set right.place (join left ops[i.val] right.operand)⟩ where
  value := by rw [Tree.eval, h.value, hr.value]
  placed := by simp
  later k hk hlater := by
    rw [Vector.getElem_set_ne _ _ (Nat.ne_of_lt hlater)]
    exact hr.later k hk hlater
  next hplace := by
    -- the operator that stopped the right operand binds no tighter than this one
    have hle : priority ops[right.place.val] ≤ priority ops[i.val] :=
      Nat.not_lt.mp fun hlt => hstop ⟨hplace, hlt⟩
    exact .node hle (h.next hlt) hordered

/-- A term that was not folded yet stands for itself. -/
theorem Stands.leaf {t : Tree ω α} {left : α} {i : Fin (n + 1)} {terms : Vector α (n + 1)}
    (h : Stands join priority ops given t ⟨left, i, terms⟩) (hlt : i.val + 1 < n + 1) :
    Stands join priority ops given (.leaf given[i.val + 1])
      ⟨terms[i.val + 1], ⟨i.val + 1, hlt⟩, terms⟩ where
  value := (h.later (i.val + 1) hlt (Nat.lt_succ_self _)).symm
  placed := rfl
  later k hk hlater := h.later k hk (Nat.lt_of_succ_lt hlater)
  next _ := .leaf

theorem climb_of_binds {low : Nat} {left : α} {i : Fin (n + 1)} {terms : Vector α (n + 1)}
    {right : Folded α n} (h : Binds priority ops low i) (hlt : i.val < n)
    (hnext : i.val + 1 < n + 1)
    (hright : (climbRight join priority ops (priority ops[i.val] + 1) terms[i.val + 1]
      ⟨i.val + 1, hnext⟩ terms).val = right) :
    (climb join priority ops low left i terms).val
      = (climb join priority ops low (join left ops[i.val] right.operand) right.place
          (right.terms.set right.place (join left ops[i.val] right.operand))).val := by
  subst hright
  rw [climb, dif_pos h]

theorem climbRight_of_binds {low : Nat} {right : α} {i : Fin (n + 1)} {terms : Vector α (n + 1)}
    {inner : Folded α n} (h : Binds priority ops low i) (hlt : i.val < n) (hi : i.val < n + 1)
    (hinner : (climb join priority ops (priority ops[i.val]) terms[i.val] i terms).val = inner) :
    (climbRight join priority ops low right i terms).val
      = (climbRight join priority ops low inner.operand inner.place inner.terms).val := by
  subst hinner
  rw [climbRight, dif_pos h]

theorem Reaches.refl {low : Nat} {t : Tree ω α} {f : Folded α n}
    (h : Stands join priority ops given t f) (hordered : t.Ordered priority low)
    (hstop : ¬ Binds priority ops low f.place) :
    Reaches join priority ops given low t f.place f :=
  ⟨t, h, hordered, rfl, rfl, hstop⟩

/-- Every round of folding leaves an ordered tree, and so do all rounds. -/
theorem reaches :
    (∀ (low : Nat) (left : α) (i : Fin (n + 1)) (terms : Vector α (n + 1)) (t : Tree ω α),
      Stands join priority ops given t ⟨left, i, terms⟩ → t.Ordered priority low →
      Reaches join priority ops given low t i (climb join priority ops low left i terms).val) ∧
    ∀ (low : Nat) (right : α) (i : Fin (n + 1)) (terms : Vector α (n + 1)) (t : Tree ω α),
      Stands join priority ops given t ⟨right, i, terms⟩ → t.Ordered priority low →
      Reaches join priority ops given low t i
        (climbRight join priority ops low right i terms).val := by
  refine climb.mutual_induct join priority ops
    (fun low left i terms => ∀ t, Stands join priority ops given t ⟨left, i, terms⟩ →
      t.Ordered priority low →
      Reaches join priority ops given low t i (climb join priority ops low left i terms).val)
    (fun low right i terms => ∀ t, Stands join priority ops given t ⟨right, i, terms⟩ →
      t.Ordered priority low →
      Reaches join priority ops given low t i
        (climbRight join priority ops low right i terms).val) ?_ ?_ ?_ ?_
  · intro low left i terms hbinds hlt right hright hrightEq _ left' all hall hallEq _ ihRight ih t h
      hordered
    have hnext : i.val + 1 < n + 1 := Nat.succ_lt_succ hlt
    obtain ⟨r, hr, hrOrdered, hrFirst, hrMore, hrStop⟩ := ihRight _ (h.leaf hnext) .leaf
    rw [hrightEq] at hr hrMore hrStop
    -- the operator at this place now stands over both operands
    obtain ⟨t', ht', hOrdered', hFirst', hMore', hStop'⟩ :=
      ih _ (h.node hlt hr hrOrdered hrStop) (.node hbinds.tight (h.next hlt) hrOrdered)
    rw [climb_of_binds hbinds hlt hnext (congrArg Subtype.val hrightEq)]
    refine ⟨t', ht', hOrdered', hFirst', ?_, hStop'⟩
    rw [hMore', links_drop ops given hlt]
    simp only [Tree.more, List.append_assoc, List.cons_append, hrMore, hrFirst]
    rfl
  · intro low left i terms hstop t h hordered
    rw [climb, dif_neg hstop]
    exact .refl h hordered hstop
  · intro low right i terms hbinds hlt inner hinner hinnerEq _ all hall hallEq ihInner ih t h
      hordered
    -- what stands here is the operand folded so far
    have hplaced : terms[i.val] = right := h.placed
    obtain ⟨t₁, ht₁, hOrdered₁, hFirst₁, hMore₁, hStop₁⟩ :=
      ihInner t (hplaced ▸ h) (h.next hlt)
    rw [hinnerEq] at ht₁ hMore₁ hStop₁
    obtain ⟨t', ht', hOrdered', hFirst', hMore', hStop'⟩ := ih t₁ ht₁ (hOrdered₁.mono hbinds.tight)
    rw [climbRight_of_binds hbinds hlt i.isLt (congrArg Subtype.val hinnerEq)]
    exact ⟨t', ht', hOrdered', hFirst'.trans hFirst₁, hMore'.trans hMore₁, hStop'⟩
  · intro low right i terms hstop t h hordered
    rw [climbRight, dif_neg hstop]
    exact .refl h hordered hstop

/-- What is folded from a chain is the value of its ordered tree. The terms stay as
they were. -/
theorem fold_run (join : α → ω → α → α) (priority : ω → Nat) (ops : Vector ω n)
    (terms : Vector α (n + 1)) :
    (fold join priority ops).run terms
      = ((Tree.ofChain priority (firstTerm terms) (links ops terms)).eval join, terms) := by
  have hstart : Stands join priority ops terms (.leaf (firstTerm terms))
      ⟨firstTerm terms, 0, terms⟩ :=
    ⟨rfl, rfl, fun _ _ _ => rfl, fun _ => .leaf⟩
  obtain ⟨t, ht, hordered, hfirst, hmore, hstop⟩ :=
    reaches.1 0 (firstTerm terms) 0 terms _ hstart .leaf
  -- no operator binds less tight than zero, so all of them were taken
  have hend : (links ops terms).length
      ≤ (climb join priority ops 0 (firstTerm terms) 0 terms).val.place.val := by
    refine Nat.le_trans (by simp [links]) (Nat.not_lt.mp fun hlt => hstop ⟨hlt, Nat.zero_le _⟩)
  rw [List.drop_eq_nil_of_le hend, List.append_nil] at hmore
  have hmore : t.more = links ops terms := hmore
  have hfirst : t.first = firstTerm terms := hfirst
  rw [← hfirst, ← hmore, Tree.ofChain_eq_of_ordered hordered, ht.value]
  rfl

end Fold

/-! ## Trees of chains, in the order of their terms -/

section Grouped

variable {ω α : Type} {n : Nat} {priority : ω → Nat}

namespace Tree

/-- The operator at the root, if the tree is no single term. -/
def root? : Tree ω α → Option ω
  | leaf _ => none
  | node _ op _ => some op

/-- At every operator, an operator at the root of its left operand binds at least
as tight, and one at the root of its right operand binds tighter. -/
def Grouped (priority : ω → Nat) : Tree ω α → Prop
  | leaf _ => True
  | node left op right =>
    (∀ op' ∈ left.root?, priority op ≤ priority op') ∧
      (∀ op' ∈ right.root?, priority op < priority op') ∧
      left.Grouped priority ∧ right.Grouped priority

/-- The terms and operators of a tree from left to right. -/
def inorder : Tree ω α → List (α ⊕ ω)
  | leaf term => [.inl term]
  | node left op right => left.inorder ++ .inr op :: right.inorder

/-- To be ordered is to be grouped, with a root that binds tight enough. -/
theorem ordered_iff {low : Nat} {t : Tree ω α} :
    t.Ordered priority low ↔ t.Grouped priority ∧ ∀ op ∈ t.root?, low ≤ priority op := by
  induction t generalizing low with
  | leaf term => simp [Ordered.leaf, Grouped, root?]
  | node left op right ihLeft ihRight =>
    constructor
    · rintro (_ | ⟨tight, leftOrdered, rightOrdered⟩)
      obtain ⟨hleft, hleftRoot⟩ := ihLeft.mp leftOrdered
      obtain ⟨hright, hrightRoot⟩ := ihRight.mp rightOrdered
      exact ⟨⟨hleftRoot, hrightRoot, hleft, hright⟩, by simpa [root?] using tight⟩
    · rintro ⟨⟨hleftRoot, hrightRoot, hleft, hright⟩, hroot⟩
      exact .node (hroot op rfl) (ihLeft.mpr ⟨hleft, hleftRoot⟩) (ihRight.mpr ⟨hright, hrightRoot⟩)

theorem inorder_eq (t : Tree ω α) :
    t.inorder = .inl t.first :: t.more.flatMap fun link => [.inr link.1, .inl link.2] := by
  induction t with
  | leaf term => rfl
  | node left op right ihLeft ihRight => simp [inorder, ihLeft, ihRight, first, more]

end Tree

/-- Terms with operators between them. -/
def alternate : List α → List ω → List (α ⊕ ω)
  | term :: terms, op :: ops => .inl term :: .inr op :: alternate terms ops
  | terms, _ => terms.map .inl

theorem alternate_cons (term : α) (terms : List α) (ops : List ω)
    (h : ops.length = terms.length) :
    alternate (term :: terms) ops
      = .inl term :: (ops.zip terms).flatMap fun link => [.inr link.1, .inl link.2] := by
  induction ops generalizing term terms with
  | nil =>
    obtain rfl : terms = [] := List.length_eq_zero_iff.mp h.symm
    rfl
  | cons op ops ih =>
    cases terms with
    | nil => simp at h
    | cons term' terms => simp [alternate, ih term' terms (by simpa using h)]

/-- Operators that alternate with terms determine the links. -/
theorem flatMap_link_inj {links links' : List (ω × α)}
    (h : (links.flatMap fun link => [Sum.inr link.1, Sum.inl link.2])
      = links'.flatMap fun link => [Sum.inr link.1, Sum.inl link.2]) : links = links' := by
  induction links generalizing links' with
  | nil => cases links' <;> simp_all
  | cons link links ih =>
    cases links' with
    | nil => simp at h
    | cons link' links' =>
      simp only [List.flatMap_cons, List.cons_append, List.nil_append, List.cons.injEq,
        Sum.inr.injEq, Sum.inl.injEq] at h
      rw [ih h.2.2, Prod.ext h.1 h.2.1]

/-- A tree has the terms and operators of a chain from left to right if and only if
it has their first term and their links. -/
theorem Tree.inorder_eq_alternate {t : Tree ω α} {ops : Vector ω n} {terms : Vector α (n + 1)} :
    t.inorder = alternate terms.toList ops.toList ↔
      t.first = firstTerm terms ∧ t.more = links ops terms := by
  have hne : terms.toList ≠ [] := by simp
  have hterms : terms.toList = firstTerm terms :: terms.toList.tail := by
    rw [← List.cons_head_tail hne]
    simp [List.head_eq_getElem, firstTerm]
  rw [t.inorder_eq, hterms, alternate_cons _ _ _ (by simp), List.cons.injEq, Sum.inl.injEq]
  exact and_congr_right fun _ => ⟨flatMap_link_inj, fun h => by rw [h]; rfl⟩

end Grouped

/-! ## Expressions -/

/-- The expression of a tree, in which every operator has the line of the first
term of its part. -/
def Tree.expression {ω : Type} (link : ω → Link) : Tree ω Expr → Expr
  | leaf e => e
  | node left op right =>
    match link op with
    | .arith a => .binary left.first.line (.arith a) (left.expression link) (right.expression link)
    | .compare sign =>
      .comparison left.first.line sign (left.expression link) (right.expression link)

theorem Tree.line_expression {ω : Type} (link : ω → Link) (t : Tree ω Expr) :
    (t.expression link).line = t.first.line := by
  cases t with
  | leaf e => rfl
  | node left op right =>
    unfold expression
    split <;> rfl

/-- An operator that takes its line from its left operand takes it from the first
term of its part. -/
theorem Tree.eval_join {ω : Type} (link : ω → Link) (t : Tree ω Expr) :
    t.eval (fun left op right => (link op).join left right) = t.expression link := by
  induction t with
  | leaf e => rfl
  | node left op right ihLeft ihRight =>
    rw [eval, ihLeft, ihRight, expression]
    cases link op with
    | arith a => rw [Link.join, left.line_expression]
    | compare sign => rw [Link.join, left.line_expression]

/-- The expression of a tree of expressions. -/
def Tree.toExpr (t : Tree Link Expr) : Expr := t.eval Link.join

/-- The expression of a chain is that of its ordered tree. -/
theorem expr_eq_toExpr (first : Expr) (rest : List (Link × Expr)) :
    expr first rest = (Tree.ofChain Link.priority first rest).toExpr := by
  have hlinks : (rest.map Prod.fst).zip (rest.map Prod.snd) = rest := by
    rw [← List.unzip_fst, ← List.unzip_snd, List.zip_unzip]
  exact (congrArg Prod.fst (fold_run Link.join Link.priority _ _)).trans
    (congrArg (fun links => (Tree.ofChain Link.priority first links).toExpr) hlinks)

/-- Whatever the priorities of its operators are, a chain has one tree that has its
terms and operators from left to right and is grouped by priority, equal ones
from the left. Folding gives the expression of this tree, in which every
operator has the line of the first term of its part, and leaves the terms as
they were. -/
theorem fold_grouped {ω : Type} {n : Nat} (link : ω → Link) (priority : ω → Nat)
    (ops : Vector ω n) (terms : Vector Expr (n + 1)) :
    ∃ t : Tree ω Expr,
      (t.inorder = alternate terms.toList ops.toList ∧ t.Grouped priority) ∧
      (∀ t' : Tree ω Expr, t'.inorder = alternate terms.toList ops.toList →
        t'.Grouped priority → t' = t) ∧
      (fold (fun left op right => (link op).join left right) priority ops).run terms
        = (t.expression link, terms) := by
  refine ⟨Tree.ofChain priority (firstTerm terms) (links ops terms), ⟨?_, ?_⟩, ?_, ?_⟩
  · exact Tree.inorder_eq_alternate.mpr ⟨Tree.first_ofChain _ _, Tree.more_ofChain _ _⟩
  · exact (Tree.ordered_iff.mp (Tree.ordered_ofChain _ _)).1
  · intro t' hinorder hgrouped
    obtain ⟨hfirst, hmore⟩ := Tree.inorder_eq_alternate.mp hinorder
    have hordered : t'.Ordered priority 0 :=
      Tree.ordered_iff.mpr ⟨hgrouped, fun _ _ => Nat.zero_le _⟩
    rw [← hfirst, ← hmore, Tree.ofChain_eq_of_ordered hordered]
  · rw [fold_run, Tree.eval_join]

end Stackling.Chain
