import Mathlib.Tactic.Common
import Stackling.Proofs.Assemble
import Stackling.Proofs.Program.Emits
import Stackling.Proofs.Text.Decimal

/-!
# The labels of emitted code

A label ends with its number, and a number has no underscore in it, so labels
with different numbers are different (`Label.numbered_inj`). Emitted code uses
each number that it takes from the supply for one label at most. Hence

* **once** — no label is defined twice (`Stmt.Emits.fresh`);
* **somewhere** — every label that is jumped to is defined
  (`Stmt.Emits.closed`).
-/

namespace Stackling

open Assemble

/-! ## Numbered labels -/

/-- What follows the last underscore of a label. -/
private def Label.ending (l : Label) : Bytes := (l.reverse.takeWhile (· != 95)).reverse

private theorem Label.ending_numbered (hint : Bytes) (n : Nat) :
    (numbered hint n).ending = Decimal.ofNat n := by
  have hdigits : ∀ b ∈ (Decimal.ofNat n).reverse, (b != 95) = true := by
    intro b hb
    have hdigit := Decimal.isDigit_of_mem_ofNat (List.mem_reverse.mp hb)
    simp only [bne_iff_ne]
    rintro rfl
    exact absurd hdigit (by decide)
  -- digits are no underscores, so the number is what stands after the last one
  have hmark : (ascii "_").reverse = [95] := by decide
  rw [ending, numbered, List.reverse_append, List.reverse_append, hmark,
    List.takeWhile_append_of_pos hdigits]
  simp

/-- Labels with different numbers are different. -/
theorem Label.numbered_inj {hint hint' : Bytes} {m n : Nat}
    (h : numbered hint m = numbered hint' n) : m = n := by
  apply Decimal.ofNat_inj
  rw [← ending_numbered hint m, h, ending_numbered]

/-! ## Fresh labels -/

/-- Different labels with numbers from `low` to `high`. -/
structure Label.Fresh (low high : Nat) (ls : List Label) : Prop where
  nodup : ls.Nodup
  numbered : ∀ l ∈ ls, ∃ hint n, low ≤ n ∧ n < high ∧ l = Label.numbered hint n

namespace Label.Fresh

theorem nil (low high : Nat) : Fresh low high [] := ⟨by simp, by simp⟩

theorem mono {low low' high high' : Nat} {ls : List Label} (h : Fresh low high ls)
    (hlow : low' ≤ low) (hhigh : high ≤ high') : Fresh low' high' ls := by
  refine ⟨h.nodup, fun l hl => ?_⟩
  obtain ⟨hint, n, hn, hn', heq⟩ := h.numbered l hl
  exact ⟨hint, n, by omega, by omega, heq⟩

/-- Labels from adjoining ranges are different. -/
theorem append {low middle high : Nat} {first rest : List Label} (hfirst : Fresh low middle first)
    (hrest : Fresh middle high rest) (hlow : low ≤ middle) (hhigh : middle ≤ high) :
    Fresh low high (first ++ rest) := by
  refine ⟨List.nodup_append.mpr ⟨hfirst.nodup, hrest.nodup, ?_⟩, ?_⟩
  · rintro l hl _ hl' rfl
    obtain ⟨hint, n, _, hn, rfl⟩ := hfirst.numbered l hl
    obtain ⟨hint', n', hn', _, heq⟩ := hrest.numbered _ hl'
    have hsame := Label.numbered_inj heq
    omega
  · intro l hl
    rcases List.mem_append.mp hl with hl | hl
    · exact (hfirst.mono (Nat.le_refl _) hhigh).numbered l hl
    · exact (hrest.mono hlow (Nat.le_refl _)).numbered l hl

/-- The two labels of a construct. -/
theorem pair (hint hint' : Bytes) (n : Nat) :
    Fresh n (n + 2) [Label.numbered hint n, Label.numbered hint' (n + 1)] := by
  refine ⟨?_, ?_⟩
  · simp only [List.nodup_cons, List.mem_singleton, List.not_mem_nil, not_false_eq_true,
      List.nodup_nil, and_self, and_true]
    intro heq
    have hsame := Label.numbered_inj heq
    omega
  · simp only [List.forall_mem_cons, List.not_mem_nil, false_implies, implies_true, and_true]
    exact ⟨⟨hint, n, by omega, by omega, rfl⟩, hint', n + 1, by omega, by omega, rfl⟩

theorem perm {low high : Nat} {ls ls' : List Label} (h : Fresh low high ls) (hperm : ls.Perm ls') :
    Fresh low high ls' :=
  ⟨hperm.nodup_iff.mp h.nodup, fun l hl => h.numbered l (hperm.mem_iff.mpr hl)⟩

end Label.Fresh

/-! ## Emitted code -/

theorem Expr.EmitsOperand.isLabel {table : SymbolTable} {e : Expr} {i : Instruction}
    (h : e.EmitsOperand table i) : i.isLabel = false := by
  cases h <;> rfl

theorem Variable.isLabel_reader (v : Variable) : v.reader.isLabel = false := by
  unfold reader
  split <;> rfl

theorem Expr.EmitsOperand.target? {table : SymbolTable} {e : Expr} {i : Instruction}
    (h : e.EmitsOperand table i) : i.target? = none := by
  cases h <;> rfl

theorem Variable.target?_reader (v : Variable) : v.reader.target? = none := by
  unfold reader
  split <;> rfl

theorem Expr.Emits.fresh {table : SymbolTable} {label label' : Nat} {e : Expr}
    {code : List Instruction} (h : e.Emits table label code label') :
    Label.Fresh label label' (labels code) := by
  induction h with
  | number | text | name => exact .nil _ _
  | paren _ ih => exact ih
  | binary leftValue rightValue ihLeft ihRight =>
    simp only [labels_append]
    refine ihLeft.append (ihRight.append (.nil _ _) rightValue.label_le (Nat.le_refl _)) ?_ ?_
    · exact leftValue.label_le
    · exact rightValue.label_le
  | comparison _ leftValue rightValue ihLeft ihRight =>
    simp only [labels_append]
    have hle := leftValue.label_le
    have hle' := rightValue.label_le
    exact ihLeft.append (ihRight.append (.pair _ _ _) hle' (by omega)) hle (by omega)

/-- Emitted code defines no label twice, and only labels with numbers that it
has taken from the supply. -/
theorem Stmt.Emits.fresh {table : SymbolTable} {supply supply' : Supply} {stmts : List Stmt}
    {code : List Instruction} (h : Stmt.Emits table supply stmts code supply') :
    Label.Fresh supply.label supply'.label (labels code) := by
  induction h with
  | nil => exact .nil _ _
  | set _ _ value next ih | inc _ _ value next ih =>
    rw [labels_append, labels_cons rfl]
    exact value.fresh.append ih value.label_le next.supply_le.1
  | printName _ _ ih | printText _ ih =>
    rw [labels_cons rfl, labels_cons rfl, labels_cons rfl]
    exact ih
  | read _ _ ih =>
    rw [labels_cons rfl, labels_cons rfl, labels_cons rfl, labels_cons (Variable.isLabel_reader _),
      labels_cons rfl]
    exact ih
  | choice _ leftOperand rightOperand noPart yesPart next ihNo ihYes ih =>
    have hno := noPart.supply_le.1
    have hyes := yesPart.supply_le.1
    have hnext := next.supply_le.1
    have hpair := Label.Fresh.pair (ascii "if_then") (ascii "if_end")
    -- the two labels of the choice have the smallest numbers
    have hall := (hpair _).append (ihNo.append (ihYes.append ih hyes hnext) hno (by omega))
      (by omega) (by simp only at hno; omega)
    simp only [List.cons_append, List.nil_append] at hall
    refine hall.perm ?_
    rw [labels_cons leftOperand.isLabel, labels_cons rightOperand.isLabel, labels_cons rfl,
      labels_append, labels_cons rfl, labels_cons_label, labels_append, labels_cons_label]
    refine .trans ?_ List.perm_middle.symm
    refine .cons _ (.trans ?_ (.append_left _ List.perm_middle.symm))
    exact List.perm_middle.symm
  | loop _ leftOperand rightOperand bodyPart next ihBody ih =>
    have hbody := bodyPart.supply_le.1
    have hnext := next.supply_le.1
    -- the numbers of the loop come before those of its body
    have hpair := Label.Fresh.pair (ascii "while_begin") (ascii "while_exit")
    have hall := (hpair _).append (ihBody.append ih hbody hnext) (by omega)
      (by simp only at hbody; omega)
    simp only [List.cons_append, List.nil_append] at hall
    refine hall.perm ?_
    rw [labels_cons_label, labels_cons leftOperand.isLabel, labels_cons rightOperand.isLabel,
      labels_cons rfl, labels_append, labels_cons rfl, labels_cons_label]
    exact .cons _ List.perm_middle.symm

theorem Expr.Emits.closed {table : SymbolTable} {label label' : Nat} {e : Expr}
    {code : List Instruction} (h : e.Emits table label code label') :
    targets code ⊆ labels code := by
  induction h with
  | number | text | name => exact List.nil_subset _
  | paren _ ih => exact ih
  | binary _ _ ihLeft ihRight =>
    intro l hl
    simp only [targets_append, labels_append, List.mem_append] at hl ⊢
    rcases hl with hl | hl | hl
    · exact .inl (ihLeft hl)
    · exact .inr (.inl (ihRight hl))
    · simp [targets, Instruction.target?] at hl
  | comparison _ _ _ ihLeft ihRight =>
    intro l hl
    simp only [targets_append, labels_append, List.mem_append] at hl ⊢
    rcases hl with hl | hl | hl
    · exact .inl (ihLeft hl)
    · exact .inr (.inl (ihRight hl))
    · exact .inr (.inr hl)

/-- Emitted code defines every label that it jumps to. -/
theorem Stmt.Emits.closed {table : SymbolTable} {supply supply' : Supply} {stmts : List Stmt}
    {code : List Instruction} (h : Stmt.Emits table supply stmts code supply') :
    targets code ⊆ labels code := by
  induction h with
  | nil => exact List.nil_subset _
  | set _ _ value _ ih | inc _ _ value _ ih =>
    intro l hl
    rw [labels_append, labels_cons rfl, List.mem_append]
    rw [targets_append, targets_cons, List.mem_append] at hl
    rcases hl with hl | hl
    · exact .inl (value.closed hl)
    · exact .inr (ih hl)
  | printName _ _ ih | printText _ ih =>
    rw [labels_cons rfl, labels_cons rfl, labels_cons rfl]
    exact ih
  | read _ _ ih =>
    rw [labels_cons rfl, labels_cons rfl, labels_cons rfl, labels_cons (Variable.isLabel_reader _),
      labels_cons rfl]
    simp only [targets_cons, Variable.target?_reader]
    exact ih
  | choice _ leftOperand rightOperand _ _ _ ihNo ihYes ih =>
    intro l hl
    rw [labels_cons leftOperand.isLabel, labels_cons rightOperand.isLabel, labels_cons rfl,
      labels_append, labels_cons rfl, labels_cons_label, labels_append, labels_cons_label]
    simp only [targets_cons, targets_append, leftOperand.target?, rightOperand.target?] at hl
    simp only [Instruction.target?, Option.toList_none, Option.toList_some, List.nil_append,
      List.cons_append, List.mem_append, List.mem_cons] at hl ⊢
    rcases hl with hl | hl | hl | hl | hl
    · exact .inr (.inl hl)
    · exact .inl (ihNo hl)
    · exact .inr (.inr (.inr (.inl hl)))
    · exact .inr (.inr (.inl (ihYes hl)))
    · exact .inr (.inr (.inr (.inr (ih hl))))
  | loop _ leftOperand rightOperand _ _ ihBody ih =>
    intro l hl
    rw [labels_cons_label, labels_cons leftOperand.isLabel, labels_cons rightOperand.isLabel,
      labels_cons rfl, labels_append, labels_cons rfl, labels_cons_label]
    simp only [targets_cons, targets_append, leftOperand.target?, rightOperand.target?] at hl
    simp only [Instruction.target?, Option.toList_none, Option.toList_some, List.nil_append,
      List.cons_append, List.mem_append, List.mem_cons] at hl ⊢
    rcases hl with hl | hl | hl | hl
    · exact .inr (.inr (.inl hl))
    · exact .inr (.inl (ihBody hl))
    · exact .inl hl
    · exact .inr (.inr (.inr (ih hl)))

/-! ## The routine of a program -/

section Main

variable {table : SymbolTable} {supply supply' : Supply} {stmts : List Stmt}
  {code : List Instruction}

theorem Stmt.Emits.main_nodup (h : Stmt.Emits table supply stmts code supply') (slots : Nat) :
    (labels (Routine.main slots code).code).Nodup := by
  simpa [Routine.main, labels_cons (i := .ret) rfl] using h.fresh.nodup

theorem Stmt.Emits.main_closed (h : Stmt.Emits table supply stmts code supply') (slots : Nat) :
    targets (Routine.main slots code).code ⊆ labels (Routine.main slots code).code := by
  have hclosed := h.closed
  simpa [Routine.main, labels_cons (i := .ret) rfl, targets_cons, Instruction.target?] using hclosed

end Main

end Stackling
