import Mathlib.Tactic.Common
import Stackling.Proofs.Program.Emits

/-!
# The pieces of emitted code

Seen without its tree, the code of a program is a row of pieces: instructions
that work on the values of variables, and, between them, the code of `PRINT` and
`READ` as a whole. The `READ`s take one slot after another for their handles.

* **pieces** — `InPieces` says that code is such a row, and which slots its
  `READ`s take;
* **emission** — emitted code is in pieces (`Stmt.Emits.inPieces`);
* **reads** — each slot of a handle has one `READ`, and nothing else in the code
  is about it (`InPieces.exists_read`, `InPieces.slot_cases`).
-/

namespace Stackling

/-- A load or a store of a variable, or an instruction that is about neither a
slot nor a handle. -/
def Instruction.IsPlain (table : SymbolTable) : Instruction → Prop
  | .load _ slot | .store _ slot => ∃ x v, table.find? x = some v ∧ slot = v.slot32
  | .openOutput | .openInput | .print _ | .readInt | .readLine | .undefined _ _ => False
  | _ => True

/-- The instruction that pushes what a `PRINT` prints. -/
def Instruction.IsPrintable (table : SymbolTable) : Instruction → Prop
  | .load _ slot => ∃ x v, table.find? x = some v ∧ slot = v.slot32
  | .pushText _ => True
  | _ => False

theorem Instruction.IsPrintable.isLabel {table : SymbolTable} {i : Instruction}
    (h : i.IsPrintable table) : i.isLabel = false := by
  cases i with
  | label => exact h.elim
  | _ => rfl

/-- `InPieces table slot code slot'`: the code is a row of pieces, and the slots
from `slot` to `slot'` are those of the handles of its `READ`s, in order. -/
inductive InPieces (table : SymbolTable) : Nat → List Instruction → Nat → Prop
  | nil {slot : Nat} : InPieces table slot [] slot
  | plain {slot slot' : Nat} {i : Instruction} {code : List Instruction}
      (instruction : i.IsPlain table) (rest : InPieces table slot code slot') :
      InPieces table slot (i :: code) slot'
  | print {slot slot' : Nat} {value : Instruction} {kind : Kind} {code : List Instruction}
      (printable : value.IsPrintable table) (rest : InPieces table slot code slot') :
      InPieces table slot (.openOutput :: value :: .print kind :: code) slot'
  | read {slot slot' : Nat} {reader : Instruction} {code : List Instruction}
      (reads : reader = .readInt ∨ reader = .readLine)
      (rest : InPieces table (slot + 1) code slot') :
      InPieces table slot
        (.openInput :: .store .ref (.ofNat slot) :: .load .ref (.ofNat slot) :: reader :: code)
        slot'

namespace InPieces

variable {table : SymbolTable} {low middle high : Nat} {code first rest : List Instruction}

theorem append (hfirst : InPieces table low first middle)
    (hrest : InPieces table middle rest high) : InPieces table low (first ++ rest) high := by
  induction hfirst with
  | nil => exact hrest
  | plain instruction _ ih => exact .plain instruction (ih hrest)
  | print printable _ ih => exact .print printable (ih hrest)
  | read reads _ ih => exact .read reads (ih hrest)

/-- Code that has nothing to do with handles. -/
theorem of_plain (h : ∀ i ∈ code, i.IsPlain table) (slot : Nat) :
    InPieces table slot code slot := by
  induction code with
  | nil => exact .nil
  | cons i code ih =>
    rw [List.forall_mem_cons] at h
    exact .plain h.1 (ih h.2)

/-- Each `READ` takes one slot. -/
theorem count_openInput (h : InPieces table low code high) :
    low + code.count .openInput = high := by
  induction h with
  | nil => rfl
  | @plain slot slot' i code instruction _ ih =>
    have hne : i ≠ .openInput := by
      rintro rfl
      exact instruction
    rwa [List.count_cons_of_ne hne]
  | @print slot slot' value kind code printable _ ih =>
    have hne : value ≠ .openInput := by
      rintro rfl
      exact printable
    simpa [hne] using ih
  | @read slot slot' reader code reads _ ih =>
    have hne : reader ≠ .openInput := by
      rcases reads with rfl | rfl <;> simp
    simp only [ne_eq, hne, not_false_eq_true, reduceCtorEq, List.count_cons_self,
      List.count_cons_of_ne]
    omega

/-- The slot of a handle has a `READ` of its own. -/
theorem exists_read (h : InPieces table low code high) {slot : Nat} (hlow : low ≤ slot)
    (hhigh : slot < high) :
    ∃ before reader after, code = before ++ .openInput :: .store .ref (.ofNat slot)
        :: .load .ref (.ofNat slot) :: reader :: after ∧
      (reader = .readInt ∨ reader = .readLine) ∧ InPieces table low before slot ∧
      InPieces table (slot + 1) after high := by
  induction h with
  | nil => omega
  | plain instruction _ ih =>
    obtain ⟨before, reader, after, rfl, hreader, hbefore, hafter⟩ := ih hlow hhigh
    exact ⟨_ :: before, reader, after, rfl, hreader, .plain instruction hbefore, hafter⟩
  | print printable _ ih =>
    obtain ⟨before, reader, after, rfl, hreader, hbefore, hafter⟩ := ih hlow hhigh
    exact ⟨_ :: _ :: _ :: before, reader, after, rfl, hreader, .print printable hbefore, hafter⟩
  | @read low high _ _ reads rest ih =>
    rcases Nat.eq_or_lt_of_le hlow with rfl | hlt
    · exact ⟨[], _, _, rfl, reads, .nil, rest⟩
    · obtain ⟨before, reader, after, rfl, hreader, hbefore, hafter⟩ := ih hlt hhigh
      exact ⟨_ :: _ :: _ :: _ :: before, reader, after, rfl, hreader, .read reads hbefore, hafter⟩

/-- A load or a store is about a variable, or about a handle of the code. -/
theorem slot_cases (h : InPieces table low code high) {i : Instruction} (hi : i ∈ code)
    {slot : Int32} (hslot : i.slot? = some slot) :
    (∃ x v, table.find? x = some v ∧ slot = v.slot32) ∨
      ∃ n, low ≤ n ∧ n < high ∧ slot = .ofNat n := by
  induction h with
  | nil => simp at hi
  | plain instruction _ ih =>
    rcases List.mem_cons.mp hi with rfl | hi
    · cases i with
      | load kind _ | store kind _ =>
        obtain rfl := Option.some.inj hslot
        exact .inl instruction
      | _ => simp [Instruction.slot?] at hslot
    · exact ih hi
  | print printable _ ih =>
    simp only [List.mem_cons] at hi
    rcases hi with rfl | rfl | rfl | hi
    · simp [Instruction.slot?] at hslot
    · cases i with
      | load kind _ =>
        obtain rfl := Option.some.inj hslot
        exact .inl printable
      | pushText => simp [Instruction.slot?] at hslot
      | _ => exact printable.elim
    · simp [Instruction.slot?] at hslot
    · exact ih hi
  | @read low high reader _ reads rest ih =>
    have hrest := rest.count_openInput
    simp only [List.mem_cons] at hi
    rcases hi with rfl | rfl | rfl | rfl | hi
    · simp [Instruction.slot?] at hslot
    · exact .inr ⟨low, Nat.le_refl _, by omega, (Option.some.inj hslot).symm⟩
    · exact .inr ⟨low, Nat.le_refl _, by omega, (Option.some.inj hslot).symm⟩
    · rcases reads with rfl | rfl <;> simp [Instruction.slot?] at hslot
    · rcases ih hi with hvariable | ⟨n, hn, hn', heq⟩
      · exact .inl hvariable
      · exact .inr ⟨n, by omega, hn', heq⟩

/-- No label stands within a piece, so code from a label on is in pieces as well. -/
theorem of_label {l : Label} (h : InPieces table low (first ++ .label l :: rest) high) :
    ∃ middle, low ≤ middle ∧ InPieces table middle (.label l :: rest) high := by
  generalize hcode : first ++ .label l :: rest = code at h
  induction h generalizing first with
  | nil => simp at hcode
  | @plain slot slot' i code instruction next ih =>
    cases first with
    | nil =>
      rw [List.nil_append] at hcode
      rw [hcode]
      exact ⟨slot, Nat.le_refl _, .plain instruction next⟩
    | cons => exact ih (List.cons.inj hcode).2
  | @print slot slot' value kind code printable next ih =>
    rcases first with _ | ⟨_, _ | ⟨_, _ | ⟨_, first⟩⟩⟩
    · cases hcode
    · obtain rfl : .label l = value := (List.cons.inj (List.cons.inj hcode).2).1
      exact printable.elim
    · cases hcode
    · exact ih (List.cons.inj (List.cons.inj (List.cons.inj hcode).2).2).2
  | @read slot slot' reader code reads next ih =>
    rcases first with _ | ⟨_, _ | ⟨_, _ | ⟨_, _ | ⟨_, first⟩⟩⟩⟩
    · cases hcode
    · cases hcode
    · cases hcode
    · rcases reads with rfl | rfl <;> cases hcode
    · obtain ⟨middle, hle, hpieces⟩ :=
        ih (List.cons.inj (List.cons.inj (List.cons.inj (List.cons.inj hcode).2).2).2).2
      exact ⟨middle, by omega, hpieces⟩

end InPieces

/-! ## Emitted code is in pieces -/

theorem Expr.Emits.isPlain {table : SymbolTable} {label label' : Nat} {e : Expr}
    {code : List Instruction} (h : e.Emits table label code label') :
    ∀ i ∈ code, i.IsPlain table := by
  induction h with
  | number | text => simp [Instruction.IsPlain]
  | name found =>
    intro i hi
    rw [List.mem_singleton.mp hi]
    exact ⟨_, _, found, rfl⟩
  | paren _ ih => exact ih
  | binary _ _ ihLeft ihRight =>
    simp only [List.forall_mem_append]
    exact ⟨ihLeft, ihRight, by simp [Instruction.IsPlain]⟩
  | comparison _ _ _ ihLeft ihRight =>
    simp only [List.forall_mem_append]
    exact ⟨ihLeft, ihRight, by simp [Instruction.IsPlain]⟩

theorem Expr.EmitsOperand.isPlain {table : SymbolTable} {e : Expr} {i : Instruction}
    (h : e.EmitsOperand table i) : i.IsPlain table := by
  cases h with
  | number => trivial
  | name found => exact ⟨_, _, found, rfl⟩

/-- The code of statements, whose handles have the slots that it takes from the
supply. -/
theorem Stmt.Emits.inPieces {table : SymbolTable} {supply supply' : Supply} {stmts : List Stmt}
    {code : List Instruction} (h : Stmt.Emits table supply stmts code supply') :
    InPieces table supply.slot code supply'.slot := by
  induction h with
  | nil => exact .nil
  | set _ found value _ ih | inc _ found value _ ih =>
    exact (InPieces.of_plain value.isPlain _).append (.plain ⟨_, _, found, rfl⟩ ih)
  | printName found _ ih => exact .print ⟨_, _, found, rfl⟩ ih
  | printText _ ih => exact .print trivial ih
  | read found _ ih =>
    refine .read ?_ (.plain ⟨_, _, found, rfl⟩ ih)
    unfold Variable.reader
    split
    · exact .inr rfl
    · exact .inl rfl
  | choice _ leftOperand rightOperand _ _ _ ihNo ihYes ih =>
    refine .plain leftOperand.isPlain (.plain rightOperand.isPlain (.plain trivial ?_))
    exact ihNo.append (.plain trivial (.plain trivial (ihYes.append (.plain trivial ih))))
  | loop _ leftOperand rightOperand _ _ ihBody ih =>
    refine .plain trivial (.plain leftOperand.isPlain (.plain rightOperand.isPlain
      (.plain trivial ?_)))
    exact ihBody.append (.plain trivial (.plain trivial ih))

end Stackling
