import Stackling.Program.Chain

/-!
# Trees of chains

A tree of operators over terms is *ordered* if operators that bind tighter come
lower, and those that bind equally tight are grouped from the left. A chain has
one ordered tree, which is the one that is made by adding one operator after
another at the right end. The new operator goes down the right side of the tree
past all operators that bind less tightly, and takes what it finds there as its
left operand:

* **made** — the tree of a chain is ordered and has the chain from left to right
  (`Tree.ordered_ofChain`, `Tree.first_ofChain`, `Tree.more_ofChain`);
* **only one** — an ordered tree is the tree of its chain
  (`Tree.ofChain_eq_of_ordered`).
-/

namespace Stackling.Chain

/-- A tree of operators over terms. -/
inductive Tree (ω α : Type) where
  | leaf (term : α)
  | node (left : Tree ω α) (op : ω) (right : Tree ω α)
  deriving DecidableEq, Repr

namespace Tree

variable {ω α : Type} {priority : ω → Nat}

/-- Add an operator and a term at the right end of a tree. -/
def insert (priority : ω → Nat) (op : ω) (term : α) : Tree ω α → Tree ω α
  | leaf first => node (leaf first) op (leaf term)
  | node left root right =>
    if priority root < priority op then node left root (insert priority op term right)
    else node (node left root right) op (leaf term)

/-- The tree of a chain. -/
def ofChain (priority : ω → Nat) (first : α) (rest : List (ω × α)) : Tree ω α :=
  rest.foldl (fun tree link => tree.insert priority link.1 link.2) (leaf first)

/-- The first term from the left. -/
def first : Tree ω α → α
  | leaf term => term
  | node left _ _ => left.first

/-- The operators from left to right, each with the term that follows it. -/
def more : Tree ω α → List (ω × α)
  | leaf _ => []
  | node left op right => left.more ++ (op, right.first) :: right.more

/-- The operators of the tree bind at least as tight as `low`. The left operand
of an operator has none that binds less tight, and the right operand has only
tighter ones. -/
inductive Ordered (priority : ω → Nat) : Nat → Tree ω α → Prop
  | leaf {low : Nat} {term : α} : Ordered priority low (leaf term)
  | node {low : Nat} {left right : Tree ω α} {op : ω} (tight : low ≤ priority op)
      (leftOrdered : Ordered priority (priority op) left)
      (rightOrdered : Ordered priority (priority op + 1) right) :
      Ordered priority low (node left op right)

theorem Ordered.mono {low low' : Nat} {t : Tree ω α} (h : t.Ordered priority low)
    (hle : low' ≤ low) : t.Ordered priority low' := by
  cases h with
  | leaf => exact .leaf
  | node tight leftOrdered rightOrdered =>
    exact .node (Nat.le_trans hle tight) leftOrdered rightOrdered

/-- `P` holds of all operators and `Q` of all terms. -/
def All (P : ω → Prop) (Q : α → Prop) : Tree ω α → Prop
  | leaf term => Q term
  | node left op right => left.All P Q ∧ P op ∧ right.All P Q

theorem all_iff {P : ω → Prop} {Q : α → Prop} {t : Tree ω α} :
    t.All P Q ↔ Q t.first ∧ ∀ link ∈ t.more, P link.1 ∧ Q link.2 := by
  induction t with
  | leaf => simp [All, first, more]
  | node left op right ihLeft ihRight =>
    simp only [All, ihLeft, ihRight, first, more, List.forall_mem_append, List.forall_mem_cons]
    grind

/-! ## The tree that is made -/

@[simp] theorem first_insert (op : ω) (term : α) (t : Tree ω α) :
    (t.insert priority op term).first = t.first := by
  induction t with
  | leaf => rfl
  | node left root right ihLeft ihRight =>
    unfold insert
    split <;> rfl

@[simp] theorem more_insert (op : ω) (term : α) (t : Tree ω α) :
    (t.insert priority op term).more = t.more ++ [(op, term)] := by
  induction t with
  | leaf => rfl
  | node left root right ihLeft ihRight =>
    unfold insert
    split
    · simp [more, ihRight]
    · simp [more, first]

/-- Adding an operator keeps a tree ordered, if it binds tight enough. -/
theorem Ordered.insert {low : Nat} {t : Tree ω α} (h : t.Ordered priority low) {op : ω}
    (hop : low ≤ priority op) (term : α) : (t.insert priority op term).Ordered priority low := by
  induction h with
  | leaf => exact .node hop .leaf .leaf
  | @node low left right root tight leftOrdered rightOrdered ihLeft ihRight =>
    unfold Tree.insert
    split
    · rename_i hlt
      exact .node tight leftOrdered (ihRight hlt)
    · rename_i hle
      exact .node hop (.node (Nat.not_lt.mp hle) leftOrdered rightOrdered) .leaf

/-- A tree that operators and terms are added to, one after another. -/
def insertAll (priority : ω → Nat) (t : Tree ω α) (links : List (ω × α)) : Tree ω α :=
  links.foldl (fun tree link => tree.insert priority link.1 link.2) t

@[simp] theorem insertAll_nil (t : Tree ω α) : t.insertAll priority [] = t := rfl

@[simp] theorem insertAll_cons (t : Tree ω α) (op : ω) (term : α) (links : List (ω × α)) :
    t.insertAll priority ((op, term) :: links)
      = (t.insert priority op term).insertAll priority links := rfl

theorem insertAll_append (t : Tree ω α) (links links' : List (ω × α)) :
    t.insertAll priority (links ++ links')
      = (t.insertAll priority links).insertAll priority links' := by
  simp [insertAll]

theorem insertAll_spec (t : Tree ω α) (links : List (ω × α)) (h : t.Ordered priority 0) :
    (t.insertAll priority links).first = t.first ∧
      (t.insertAll priority links).more = t.more ++ links ∧
      (t.insertAll priority links).Ordered priority 0 := by
  induction links generalizing t with
  | nil => simp [h]
  | cons link links ih =>
    obtain ⟨op, term⟩ := link
    obtain ⟨hfirst, hmore, hordered⟩ := ih _ (h.insert (Nat.zero_le _) term)
    exact ⟨by simpa using hfirst, by simpa using hmore, hordered⟩

theorem first_ofChain (term : α) (links : List (ω × α)) :
    (ofChain priority term links).first = term :=
  (insertAll_spec (leaf term) links .leaf).1

theorem more_ofChain (term : α) (links : List (ω × α)) :
    (ofChain priority term links).more = links :=
  (insertAll_spec (leaf term) links .leaf).2.1

theorem ordered_ofChain (term : α) (links : List (ω × α)) :
    (ofChain priority term links).Ordered priority 0 :=
  (insertAll_spec (leaf term) links .leaf).2.2

/-! ## The only tree -/

/-- An operator that binds tighter than the root goes to the right operand. -/
theorem insertAll_node {left right : Tree ω α} {root : ω} {links : List (ω × α)}
    (h : ∀ link ∈ links, priority root < priority link.1) :
    (node left root right).insertAll priority links
      = node left root (right.insertAll priority links) := by
  induction links generalizing right with
  | nil => rfl
  | cons link links ih =>
    rw [List.forall_mem_cons] at h
    rw [insertAll_cons, insert, if_pos h.1, ih h.2, insertAll_cons]

theorem Ordered.le_of_mem_more {low : Nat} {t : Tree ω α} (h : t.Ordered priority low) :
    ∀ link ∈ t.more, low ≤ priority link.1 := by
  induction h with
  | leaf => simp [more]
  | node tight _ _ ihLeft ihRight =>
    simp only [more, List.forall_mem_append, List.forall_mem_cons]
    refine ⟨fun link hlink => Nat.le_trans tight (ihLeft link hlink), tight, fun link hlink => ?_⟩
    exact Nat.le_trans tight (Nat.le_of_succ_le (ihRight link hlink))

/-- An operator that binds no tighter than any of an ordered tree becomes its
root. -/
theorem Ordered.insert_eq {t : Tree ω α} {op : ω} (h : t.Ordered priority (priority op))
    (term : α) : t.insert priority op term = Tree.node t op (.leaf term) := by
  cases h with
  | leaf => rfl
  | node tight _ _ => rw [Tree.insert, if_neg (Nat.not_lt.mpr tight)]

/-- An ordered tree is the tree of its chain. -/
theorem ofChain_eq_of_ordered {low : Nat} {t : Tree ω α} (h : t.Ordered priority low) :
    ofChain priority t.first t.more = t := by
  induction h with
  | leaf => rfl
  | @node low left right op tight leftOrdered rightOrdered ihLeft ihRight =>
    have htight : ∀ link ∈ right.more, priority op < priority link.1 :=
      rightOrdered.le_of_mem_more
    calc ofChain priority (node left op right).first (node left op right).more
        = ((ofChain priority left.first left.more).insert priority op right.first).insertAll
            priority right.more := insertAll_append (.leaf left.first) left.more _
      _ = (node left op (.leaf right.first)).insertAll priority right.more := by
          rw [ihLeft, leftOrdered.insert_eq]
      _ = node left op (ofChain priority right.first right.more) := insertAll_node htight
      _ = node left op right := by rw [ihRight]

/-! ## Trees of other operators and terms -/

/-- The tree with other operators and terms. -/
def map {ω' α' : Type} (f : ω → ω') (g : α → α') : Tree ω α → Tree ω' α'
  | leaf term => leaf (g term)
  | node left op right => node (left.map f g) (f op) (right.map f g)

section Map

variable {ω' α' : Type} {f : ω → ω'} {priority' : ω' → Nat}

theorem map_insert (hf : ∀ op, priority' (f op) = priority op) (g : α → α') (op : ω) (term : α)
    (t : Tree ω α) :
    (t.insert priority op term).map f g = (t.map f g).insert priority' (f op) (g term) := by
  induction t with
  | leaf => rfl
  | node left root right ihLeft ihRight =>
    simp only [insert, map, hf]
    split
    · rw [map, ihRight]
    · rfl

/-- Operators with the same priorities make the same tree. -/
theorem map_ofChain (hf : ∀ op, priority' (f op) = priority op) (g : α → α') (term : α)
    (links : List (ω × α)) :
    (ofChain priority term links).map f g
      = ofChain priority' (g term) (links.map fun link => (f link.1, g link.2)) := by
  have hall : ∀ t : Tree ω α, (t.insertAll priority links).map f g
      = (t.map f g).insertAll priority' (links.map fun link => (f link.1, g link.2)) := by
    induction links with
    | nil => exact fun t => rfl
    | cons link links ih =>
      intro t
      rw [List.map_cons, insertAll_cons, insertAll_cons, ← map_insert hf, ih]
  exact hall (leaf term)

end Map

end Tree

end Stackling.Chain
