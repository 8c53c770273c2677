import Mathlib.Tactic.Common
import Stackling.Proofs.Machine.Kind

/-!
# What a loader checks

A module that was read is loaded if it has an entry and each of its instructions
passes a check of its own, whether or not control can reach it. `Code.Checked`
lists what that check asks for, and `Module.defect?_eq_none_iff` says that
nothing else is asked for. A module with an entry that is refused is refused as a
bad module (`Module.kind_of_defect?`).
-/

namespace Stackling

/-- What a loader asks of an instruction of a frame. -/
structure Code.Checked (m : Module) (f : Frame) (c : Code) : Prop where
  known : ∃ op, c.opcode? = some op ∧ op ≠ .label
  qualified : c.kind.isKnown = true ∧ c.relation.isKnown = true
  constant : c.opcode? = some .pushText → Decode.inRange c.operand m.constants.size = true
  slot : c.opcode? = some .load ∨ c.opcode? = some .store →
    Decode.inRange c.operand f.maxLocals = true
  target : c.opcode? = some .branch ∨ c.opcode? = some .jump →
    Decode.inRange c.operand f.code.size = true

/-- What a loader asks of a frame. -/
def Frame.Checked (m : Module) (f : Frame) : Prop := ∀ c ∈ f.code, c.Checked m f

namespace Decode

variable {m : Module} {f : Frame} {c : Code}

theorem inRange_iff {operand : Int32} {size : Int} :
    inRange operand size = true ↔ 0 ≤ operand.toInt ∧ operand.toInt < size := by
  simp [inRange]

/-- What is asked of an instruction with a known operation. -/
theorem checked_iff {op : Opcode} (hop : c.opcode? = some op) :
    c.Checked m f ↔ op ≠ .label ∧ (c.kind.isKnown = true ∧ c.relation.isKnown = true) ∧
      (op = .pushText → inRange c.operand m.constants.size = true) ∧
      (op = .load ∨ op = .store → inRange c.operand f.maxLocals = true) ∧
      (op = .branch ∨ op = .jump → inRange c.operand f.code.size = true) := by
  have hsome : ∀ {other : Opcode}, c.opcode? = some other ↔ op = other := by
    intro other
    rw [hop, Option.some.injEq]
  constructor
  · rintro ⟨⟨op', hknown, hlabel⟩, hqualified, hconstant, hslot, htarget⟩
    rw [← hsome.mp hknown] at hlabel
    simp only [hsome] at hconstant hslot htarget
    exact ⟨hlabel, hqualified, hconstant, hslot, htarget⟩
  · rintro ⟨hlabel, hqualified, hconstant, hslot, htarget⟩
    refine ⟨⟨op, hop, hlabel⟩, hqualified, ?_, ?_, ?_⟩
    · simpa only [hsome] using hconstant
    · simpa only [hsome] using hslot
    · simpa only [hsome] using htarget

theorem codeDefect?_eq_none_iff {address : Nat} :
    codeDefect? m f address c = none ↔ c.Checked m f := by
  unfold codeDefect?
  cases hop : c.opcode? with
  | none =>
    constructor
    · intro h
      cases h
    · rintro ⟨⟨op, hknown, _⟩, _⟩
      rw [hop] at hknown
      cases hknown
  | some op =>
    rw [checked_iff hop]
    by_cases hqualified : c.kind.isKnown = true ∧ c.relation.isKnown = true
    · -- only the operand is left to look at, if the operation has one that is a place
      cases op <;> simp [hqualified]
    · have hif : (!c.kind.isKnown || !c.relation.isKnown) = true := by
        simpa [Bool.and_eq_true, imp_iff_not_or] using hqualified
      cases op <;> simp [hif, hqualified]

theorem frameDefect?_eq_none_iff : frameDefect? m f = none ↔ f.Checked m := by
  unfold frameDefect?
  rw [List.findSome?_eq_none_iff]
  constructor
  · intro h c hc
    obtain ⟨pc, hlt, rfl⟩ := Array.mem_iff_getElem.mp hc
    apply codeDefect?_eq_none_iff.mp
    apply h (f.code[pc], pc)
    rw [List.mk_mem_zipIdx_iff_getElem?, Array.getElem?_toList, Array.getElem?_eq_getElem hlt]
  · rintro h ⟨c, pc⟩ hmem
    apply codeDefect?_eq_none_iff.mpr
    apply h
    rw [List.mk_mem_zipIdx_iff_getElem?, Array.getElem?_toList] at hmem
    exact Array.mem_of_getElem? hmem

/-- The lack of an entry is never the fault of an instruction. -/
theorem codeDefect?_ne_noEntry {address : Nat} {name : Bytes} :
    codeDefect? m f address c ≠ some (.noEntry name) := by
  unfold codeDefect?
  cases c.opcode? with
  | none => simp
  | some op =>
    cases op with
    | label => simp
    | _ =>
      dsimp only
      split_ifs <;> simp

end Decode

namespace Module

theorem defect?_eq_none_iff {m : Module} :
    m.defect? = none ↔ (∃ f, m.entry? = some f) ∧ ∀ f ∈ m.routines, f.Checked m := by
  unfold defect?
  cases hentry : m.entry? with
  | none => simp
  | some f =>
    simp only [Option.isNone_some, Bool.false_eq_true, if_false, List.findSome?_eq_none_iff,
      Decode.frameDefect?_eq_none_iff]
    simp

/-- A module with an entry is refused as a bad module only. -/
theorem kind_of_defect? {m : Module} {f : Frame} (hentry : m.entry? = some f)
    {defect : Decode.Defect} (h : m.defect? = some defect) :
    (Decode.Error.invalid defect).kind = .badModule := by
  unfold defect? at h
  rw [hentry, if_neg (by simp)] at h
  obtain ⟨r, _, hr⟩ := List.exists_of_findSome?_eq_some h
  obtain ⟨⟨c, pc⟩, _, hc⟩ := List.exists_of_findSome?_eq_some hr
  cases defect with
  | noEntry name => exact absurd hc Decode.codeDefect?_ne_noEntry
  | _ => rfl

end Module

end Stackling
