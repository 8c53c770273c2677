import Mathlib.Tactic.Common
import Stackling.Proofs.Assembly.RoundTrip
import Stackling.Proofs.Program.Parsing
import Stackling.Proofs.SoundUnit

/-!
# Compiled programs as text assembly

The unit of a program that was read from a text can be written as text assembly
(`Program.compile_readable`). Its name is a name of the text, so a word; its
labels are made of a word and a number; and its loads, stores and prints are
qualified by the types of variables.
-/

namespace Stackling

open Assembly

/-! ## Names -/

theorem stops_of_isWordByte {b : UInt8} (h : Bytes.isWordByte b = true) : Blank.stops b = true := by
  simp only [Bytes.isWordByte, Bytes.isLetter, Bytes.isUnderscore, Bytes.isDigit, Bool.or_eq_true,
    Bool.and_eq_true, decide_eq_true_eq, beq_iff_eq, UInt8.le_iff_toNat_le, ← UInt8.toNat_inj,
    UInt8.reduceToNat] at h
  exact Blank.stops_of_lt (by omega) (by omega)

/-- The names of a text are words. -/
theorem Token.isWord_of_name {input : Input} {toks : List Token}
    (h : Token.ofInput input = .ok toks) : ∀ t ∈ toks, t.kind = .name → IsWord t.content := by
  apply @forall_of_read fun t => t.kind = .name → IsWord t.content
  · intro line pos a s kind length hread hkind
    obtain rfl : kind = .name := hkind
    obtain ⟨ha, hs⟩ := Lexeme.read_name hread
    refine ⟨by simp, ?_⟩
    rw [hs, List.all_eq_true, List.forall_mem_cons]
    refine ⟨stops_of_isWordByte ?_, fun b hb => stops_of_isWordByte ?_⟩
    · simp [Bytes.isWordByte, ha]
    · exact List.all_eq_true.mp List.all_takeWhile b hb
  · exact h

theorem Program.isWord_name {input : Input} {p : Program} (h : Program.ofInput input = .ok p) :
    IsWord p.name := by
  obtain ⟨toks, htoks, hp⟩ := Parser.program_eq_ok_of_ofInput h
  obtain ⟨d, rfl, rfl⟩ := (Parser.program_eq_ok_iff (Token.isDigits_of_number htoks)).mp hp
  apply Token.isWord_of_name htoks
  · simp [Grammar.Derivation.yield]
  · exact d.name.kind_eq

theorem Label.isWord_numbered {hint : Bytes} (h : IsWord hint) (n : Nat) :
    IsWord (numbered hint n) := by
  unfold numbered
  refine ⟨by simp [h.1], ?_⟩
  rw [List.all_append, List.all_append, h.2]
  exact (isWord_ofInt n).2

/-! ## Code -/

theorem VarType.isKnown_kind (type : VarType) : type.kind.isKnown = true := by
  cases type <;> rfl

theorem Relation.isKnown_of_comparator {word : Bytes} {r : Relation}
    (h : ofComparator? word = some r) : r.isKnown = true ∧ r.negate.isKnown = true := by
  unfold ofComparator? at h
  split_ifs at h <;> obtain rfl := Option.some.inj h <;> exact ⟨rfl, rfl⟩

namespace Instruction

theorem IsNamed.plain {i : Instruction} (hlabel : i.label? = none) (h : i.isQualified = true) :
    i.IsNamed := by
  refine ⟨h, ?_⟩
  intro l hl
  rw [hlabel] at hl
  cases hl

theorem IsNamed.numbered {i : Instruction} {hint : Bytes} {n : Nat}
    (hlabel : i.label? = some (.numbered hint n)) (hhint : IsWord hint) (h : i.isQualified = true) :
    i.IsNamed := by
  refine ⟨h, ?_⟩
  intro l hl
  obtain rfl := Option.some.inj (hlabel.symm.trans hl)
  exact Label.isWord_numbered hhint n

end Instruction

open Instruction

theorem Variable.named_load (v : Variable) : v.load.IsNamed := .plain rfl v.type.isKnown_kind

theorem Variable.named_reader (v : Variable) : v.reader.IsNamed := by
  unfold reader
  split <;> exact .plain rfl rfl

theorem Expr.Emits.named {table : SymbolTable} {label label' : Nat} {e : Expr}
    {code : List Instruction} (h : e.Emits table label code label') : ∀ i ∈ code, i.IsNamed := by
  induction h with
  | number | text => exact List.forall_mem_singleton.mpr (.plain rfl rfl)
  | name => exact List.forall_mem_singleton.mpr (Variable.named_load _)
  | paren _ ih => exact ih
  | binary _ _ ihLeft ihRight =>
    rw [List.forall_mem_append, List.forall_mem_append]
    exact ⟨ihLeft, ihRight, List.forall_mem_singleton.mpr (.plain rfl rfl)⟩
  | comparison known _ _ ihLeft ihRight =>
    have hrelation := (Relation.isKnown_of_comparator known).1
    simp only [List.forall_mem_append, List.forall_mem_cons]
    exact ⟨ihLeft, ihRight, .numbered rfl (by decide) hrelation, .plain rfl rfl,
      .numbered rfl (by decide) rfl, .numbered rfl (by decide) rfl, .plain rfl rfl,
      .numbered rfl (by decide) rfl, by simp⟩

theorem Expr.EmitsOperand.named {table : SymbolTable} {e : Expr} {i : Instruction}
    (h : e.EmitsOperand table i) : i.IsNamed := by
  cases h <;> exact .plain rfl rfl

/-- Emitted code is described by words. -/
theorem Stmt.Emits.named {table : SymbolTable} {supply supply' : Supply} {stmts : List Stmt}
    {code : List Instruction} (h : Stmt.Emits table supply stmts code supply') :
    ∀ i ∈ code, i.IsNamed := by
  induction h with
  | nil => simp
  | set type _ value _ ih | inc type _ value _ ih =>
    rw [List.forall_mem_append, List.forall_mem_cons]
    exact ⟨value.named, .plain rfl type.isKnown_kind, ih⟩
  | @printName _ _ _ _ _ v _ _ _ _ ih =>
    simp only [List.forall_mem_cons]
    exact ⟨.plain rfl rfl, v.named_load, .plain rfl v.type.isKnown_kind, ih⟩
  | printText _ ih =>
    simp only [List.forall_mem_cons]
    exact ⟨.plain rfl rfl, .plain rfl rfl, .plain rfl rfl, ih⟩
  | @read _ _ _ _ v _ _ _ _ ih =>
    simp only [List.forall_mem_cons]
    exact ⟨.plain rfl rfl, .plain rfl rfl, .plain rfl rfl, v.named_reader,
      .plain rfl v.type.isKnown_kind, ih⟩
  | choice known leftOperand rightOperand _ _ _ ihNo ihYes ih =>
    have hrelation := (Relation.isKnown_of_comparator known).1
    simp only [List.forall_mem_append, List.forall_mem_cons]
    exact ⟨leftOperand.named, rightOperand.named, .numbered rfl (by decide) hrelation, ihNo,
      .numbered rfl (by decide) rfl, .numbered rfl (by decide) rfl, ihYes,
      .numbered rfl (by decide) rfl, ih⟩
  | loop known leftOperand rightOperand _ _ ihBody ih =>
    have hrelation := (Relation.isKnown_of_comparator known).2
    simp only [List.forall_mem_append, List.forall_mem_cons]
    exact ⟨.numbered rfl (by decide) rfl, leftOperand.named, rightOperand.named,
      .numbered rfl (by decide) hrelation, ihBody, .numbered rfl (by decide) rfl,
      .numbered rfl (by decide) rfl, ih⟩

/-- The unit of a program that was read can be written as text assembly, if its
slots can be numbered. -/
theorem Program.compile_readable {input : Input} {p : Program} {c : Compiled}
    (hread : Program.ofInput input = .ok p) (hcompile : p.compile = .ok c)
    (hslots : c.slots ≤ 2147483647) : c.unit.IsReadable := by
  have hsound := compile_sound hcompile (by omega)
  obtain ⟨_, code, supply, hemits, hsupply, hunit⟩ := compile_spec hcompile
  rw [hunit] at hsound ⊢
  refine ⟨isWord_name hread, ?_⟩
  intro r hr
  obtain ⟨hnonneg, _, hcode⟩ := hsound r hr
  obtain rfl := List.mem_singleton.mp hr
  have hentry : IsWord entryName := by decide
  refine ⟨hentry, hnonneg, ?_, fun i hi => ⟨?_, hcode i hi⟩⟩
  · show (supply.slot : Int) ≤ 2147483647
    omega
  · rcases List.mem_append.mp hi with hi | hi
    · exact hemits.named i hi
    · rw [List.mem_singleton.mp hi]
      exact .plain rfl rfl

end Stackling
