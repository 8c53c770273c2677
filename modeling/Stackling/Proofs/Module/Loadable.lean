import Mathlib.Algebra.Group.Int.Defs
import Mathlib.Algebra.Order.Group.Nat
import Mathlib.Data.List.Forall2
import Mathlib.Tactic.Common
import Stackling.Proofs.Machine.Safety
import Stackling.Proofs.Module.Checked
import Stackling.Proofs.Module.RoundTrip

/-!
# Assembled modules can be written and loaded

The constants of an assembled module are texts of the unit, each of them once
(`AsmUnit.mem_constants`, `AsmUnit.nodup_constants`), and it has no unused fields
(`AsmUnit.clear_of_assemble`). If its instructions have a meaning, only the places
that it refers to can be wrong: it has no defect if and only if its jumps stay
inside the code and its constants can be numbered (`AsmUnit.defect?_eq_none_iff`).
Then what was written of it is read as the module itself
(`Module.decode_of_encode`).
-/

namespace Stackling

open Assemble StackDepth

/-! ## Constants -/

/-- The text that an instruction holds. -/
def Instruction.constant? : Instruction → Option Bytes
  | .pushText text => some text
  | _ => none

/-- The texts that a unit holds. -/
def AsmUnit.constants (unit : AsmUnit) : List Bytes :=
  unit.routines.flatMap fun r => r.code.filterMap Instruction.constant?

/-- A property of pools that stays when one of the texts is interned. -/
def Interner.Keeps (texts : List Bytes) (P : Interner → Prop) : Prop :=
  ∀ text ∈ texts, ∀ pool, P pool → P (Interner.intern pool text).1

section Keeps

variable {P : Interner → Prop} {pool : Interner}

namespace Assemble

/-! Whatever comes of assembling, nothing is done to the pool but interning. -/

theorem resolve_keeps {address : Label → Option Nat} {i : Instruction}
    (hkeeps : Interner.Keeps i.constant?.toList P) (h : P pool) : P (resolve address pool i).1 := by
  cases i with
  | pushText text => exact hkeeps text (List.mem_singleton.mpr rfl) pool h
  | branch _ target | jump target =>
    simp only [resolve]
    cases address target with
    | none | some a => exact h
  | _ => exact h

theorem resolveAll_keeps {address : Label → Option Nat} {code : List Instruction}
    (hkeeps : Interner.Keeps (code.filterMap Instruction.constant?) P) (h : P pool) :
    P (resolveAll address pool code).1 := by
  induction code generalizing pool with
  | nil => exact h
  | cons i code ih =>
    have hfirst : P (resolve address pool i).1 := by
      refine resolve_keeps ?_ h
      intro text htext
      apply hkeeps
      rw [Option.mem_toList] at htext
      exact List.mem_filterMap.mpr ⟨i, List.mem_cons_self, htext⟩
    have hrest : Interner.Keeps (code.filterMap Instruction.constant?) P := by
      intro text htext
      obtain ⟨j, hj, htext⟩ := List.mem_filterMap.mp htext
      exact hkeeps text (List.mem_filterMap.mpr ⟨j, List.mem_cons_of_mem _ hj, htext⟩)
    unfold resolveAll
    split
    · rename_i middle l hi
      rwa [hi] at hfirst
    · rename_i middle code? hi
      rw [hi] at hfirst
      have hall := ih hrest hfirst
      split <;> rename_i hcodes <;> rwa [hcodes] at hall

theorem routine_keeps {r : Routine}
    (hkeeps : Interner.Keeps (r.code.filterMap Instruction.constant?) P) (h : P pool) :
    P (routine pool r).1 := by
  have hcode : P (resolveAll (address? r.code) pool r.code).1 := resolveAll_keeps hkeeps h
  unfold routine
  split
  · exact h
  · split
    · rename_i hall
      rwa [hall] at hcode
    · rename_i hall
      rw [hall] at hcode
      split <;> exact hcode

theorem routines_keeps {seen : List Bytes} {rs : List Routine}
    (hkeeps : ∀ r ∈ rs, Interner.Keeps (r.code.filterMap Instruction.constant?) P) (h : P pool) :
    P (routines seen pool rs).1 := by
  induction rs generalizing seen pool with
  | nil => exact h
  | cons r rs ih =>
    rw [List.forall_mem_cons] at hkeeps
    have hfirst := routine_keeps hkeeps.1 h
    unfold routines
    split
    · exact h
    · split
      · rename_i hr
        rwa [hr] at hfirst
      · rename_i hr
        rw [hr] at hfirst
        have hall := @ih _ (r.name :: seen) hkeeps.2 hfirst
        split <;> rename_i hframes <;> rwa [hframes] at hall

end Assemble

theorem AsmUnit.assembleWith_keeps {unit : AsmUnit} (hkeeps : Interner.Keeps unit.constants P)
    (h : P pool) : P (unit.assembleWith pool).1 := by
  have hroutines : P (Assemble.routines [] pool unit.routines).1 := by
    refine routines_keeps ?_ h
    intro r hr text htext
    exact hkeeps text (List.mem_flatMap.mpr ⟨r, hr, htext⟩)
  unfold assembleWith
  split
  · rename_i hframes
    rwa [hframes] at hroutines
  · rename_i hframes
    rw [hframes] at hroutines
    split <;> exact hroutines

/-- A module refers to the pool that assembling it has left. -/
theorem AsmUnit.constants_of_assembleWith {unit : AsmUnit} {m : Module}
    (h : (unit.assembleWith pool).2 = .ok m) : m.constants = (unit.assembleWith pool).1.texts := by
  unfold assembleWith at h ⊢
  split at h
  · cases h
  · split at h
    · rename_i hentry
      obtain rfl := Except.ok.inj h
      simp only [hentry, if_true]
    · cases h

end Keeps

theorem Interner.mem_intern {pool : Interner} {text other : Bytes}
    (h : other ∈ (pool.intern text).1.texts) : other ∈ pool.texts ∨ other = text := by
  unfold intern at h
  split at h
  · exact .inl h
  · exact Array.mem_push.mp h

namespace AsmUnit

variable {unit : AsmUnit} {m : Module}

/-- The constants of an assembled module are those of the unit. -/
theorem mem_constants (h : unit.assemble = .ok m) {text : Bytes} (htext : text ∈ m.constants) :
    text ∈ unit.constants := by
  rw [constants_of_assembleWith h] at htext
  refine assembleWith_keeps (P := fun pool => ∀ text ∈ pool.texts, text ∈ unit.constants) ?_ ?_
    text htext
  · intro text htext pool hpool other hother
    rcases Interner.mem_intern hother with hother | rfl
    · exact hpool other hother
    · exact htext
  · intro text htext
    exact absurd htext (Array.not_mem_empty text)

theorem nodup_constants (h : unit.assemble = .ok m) : m.constants.toList.Nodup := by
  rw [constants_of_assembleWith h]
  exact Interner.nodup _

end AsmUnit

/-! ## Unused fields -/

theorem Assemble.Resolves.clear_eq {address : Label → Option Nat} {pool : Pool} {i : Instruction}
    {c : Code} (h : Resolves address pool i c) : c.clear = c := by
  cases h with
  | arith op => cases op <;> rfl
  | undefined op hop =>
    unfold Code.clear
    rw [ite_self, ite_self]
  | _ => rfl

theorem Assemble.Resolved.clear_eq {pool : Pool} {code : List Instruction} {codes : Array Code}
    (h : Resolved pool code codes) : codes.map Code.clear = codes := by
  have hall : ∀ {is : List Instruction} {cs : List Code},
      List.Forall₂ (Resolves (address? code) pool) is cs → cs.map Code.clear = cs := by
    intro is cs hcs
    induction hcs with
    | nil => rfl
    | cons hc _ ih => rw [List.map_cons, hc.clear_eq, ih]
  apply Array.toList_inj.mp
  rw [Array.toList_map]
  exact hall h.resolves

theorem AsmUnit.clear_of_assemble {unit : AsmUnit} {m : Module} (h : unit.assemble = .ok m) :
    m.clear = m := by
  obtain ⟨_, _, hall, _⟩ := assemble_spec h
  have hroutines : ∀ {rs : List Routine} {fs : List Frame},
      List.Forall₂ (Assembled m.constants) rs fs → fs.map Frame.clear = fs := by
    intro rs fs hfs
    induction hfs with
    | nil => rfl
    | cons hf _ ih => rw [List.map_cons, Frame.clear, hf.clear_eq, ih]
  rw [Module.clear, hroutines hall]

/-! ## Defects -/

namespace Assemble

/-- Jumps stay inside the code, at addresses that machine integers can number. -/
def Enclosed (code : List Instruction) : Prop :=
  ∀ l ∈ targets code, ∀ a, address? code l = some a → a < span code ∧ a < 2 ^ 31

theorem enclosed_concat {code : List Instruction} {i : Instruction} (hi : i.isLabel = false)
    (hspan : span (code ++ [i]) ≤ 2 ^ 31) : Enclosed (code ++ [i]) := by
  intro l _ a h
  obtain ⟨first, rest, hcode, _, rfl⟩ := split_of_address? h
  have hlast : span (code ++ [i]) = span first + span rest := by
    rw [hcode, span_append, span_cons_label]
  rcases List.eq_nil_or_concat rest with rfl | ⟨rest, j, rfl⟩
  · -- the label would be the last instruction
    obtain ⟨_, hlabel⟩ := List.append_inj' hcode rfl
    obtain rfl := List.head_eq_of_cons_eq hlabel
    cases hi
  · rw [List.concat_eq_append] at hcode hlast
    rw [← List.cons_append, ← List.append_assoc] at hcode
    obtain ⟨_, hj⟩ := List.append_inj' hcode rfl
    obtain rfl := List.head_eq_of_cons_eq hj
    have hrest : span (rest ++ [i]) = span rest + 1 := by
      rw [span_append, span_cons hi, span_nil]
    omega

/-- A place that is written as a machine integer is found again only if machine
integers can number it. -/
theorem inRange_ofNat {place size : Nat} (h : place < 2 ^ 32) :
    Decode.inRange (Int32.ofNat place) size = true ↔ place < size ∧ place < 2 ^ 31 := by
  rw [Decode.inRange_iff]
  by_cases hlt : place < 2 ^ 31
  · rw [Int32.toInt_ofNat_of_lt hlt]
    omega
  · have hneg : (Int32.ofNat place).toInt = (place : Int) - 2 ^ 32 := by
      rw [Int32.toInt_ofNat']
      simp only [Int.bmod, Int32.size]
      omega
    omega

/-- An instruction whose label or text has a place inside the code or the pool
that machine integers can number. -/
structure Placed (pool : Pool) (code : List Instruction) (i : Instruction) : Prop where
  target : ∀ l, i.target? = some l → ∀ a, address? code l = some a → a < span code ∧ a < 2 ^ 31
  constant : ∀ text, i.constant? = some text → ∀ index : Nat, pool[index]? = some text →
    index < 2 ^ 31

section Placed

variable {pool : Pool} {code : List Instruction} {i : Instruction}

theorem placed_of_none (htarget : i.target? = none) (hconstant : i.constant? = none) :
    Placed pool code i := by
  constructor
  · intro l hl
    rw [htarget] at hl
    cases hl
  · intro text htext
    rw [hconstant] at htext
    cases htext

theorem placed_target_iff {l : Label} {a : Nat} (htarget : i.target? = some l)
    (hconstant : i.constant? = none) (place : address? code l = some a) :
    Placed pool code i ↔ a < span code ∧ a < 2 ^ 31 := by
  constructor
  · intro h
    exact h.target l htarget a place
  · intro h
    refine ⟨?_, ?_⟩
    · intro l' hl' a' ha'
      rw [htarget] at hl'
      cases hl'
      rw [place] at ha'
      cases ha'
      exact h
    · intro text htext
      rw [hconstant] at htext
      cases htext

/-- In a pool that holds each text once, a text has one place. -/
theorem placed_constant_iff {text : Bytes} {index : Nat} (htarget : i.target? = none)
    (hconstant : i.constant? = some text) (hnodup : pool.toList.Nodup)
    (place : pool[index]? = some text) : Placed pool code i ↔ index < 2 ^ 31 := by
  constructor
  · intro h
    exact h.constant text hconstant index place
  · intro h
    refine ⟨?_, ?_⟩
    · intro l hl
      rw [htarget] at hl
      cases hl
    · intro text' htext' index' place'
      rw [hconstant] at htext'
      cases htext'
      have hlt : index < pool.toList.length := (Array.getElem?_eq_some_iff.mp place).1
      have hsame : pool.toList[index]? = pool.toList[index']? := by
        rw [Array.getElem?_toList, Array.getElem?_toList, place, place']
      rwa [← (List.getElem?_inj hlt hnodup).mp hsame]

end Placed

/-- Of an instruction with a meaning, only its place can be wrong. -/
theorem Resolves.checked_iff {m : Module} {f : Frame} {code : List Instruction} {i : Instruction}
    {c : Code} (h : Resolves (address? code) m.constants i c) (hi : i.isMeaningful = true)
    (hnodup : m.constants.toList.Nodup) (hconstants : m.constants.size < 2 ^ 32)
    (hcode : f.code.size = span code) (hspan : span code < 2 ^ 32)
    (hslot : ∀ slot, i.slot? = some slot → slot.toInt < f.maxLocals) :
    c.Checked m f ↔ Placed m.constants code i := by
  obtain ⟨hsound, hqualified⟩ := Instruction.isMeaningful_iff.mp hi
  -- an address is inside the code, or the one after it
  have haddress : ∀ {l a}, address? code l = some a → a < 2 ^ 32 := by
    intro l a ha
    obtain ⟨first, rest, hsplit, _, rfl⟩ := split_of_address? ha
    rw [hsplit, span_append] at hspan
    omega
  cases h with
  | @pushText text index place =>
    have hlt := (Array.getElem?_eq_some_iff.mp place).1
    refine Iff.trans (Decode.checked_iff rfl) (Iff.trans ?_
      (placed_constant_iff rfl rfl hnodup place).symm)
    have hkind : Kind.ref.isKnown = true := rfl
    simp [inRange_ofNat (Nat.lt_trans hlt hconstants), hlt, hkind, Relation.isKnown]
  | load kind slot | store kind slot =>
    have hrange : Decode.inRange slot f.maxLocals = true :=
      Decode.inRange_iff.mpr ⟨by simpa [Instruction.isSound] using hsound, hslot slot rfl⟩
    have hkind : kind.isKnown = true := hqualified
    refine iff_of_true ((Decode.checked_iff rfl).mpr ?_) (placed_of_none rfl rfl)
    simp [hrange, hkind, Relation.isKnown]
  | branch relation place =>
    have hrelation : relation.isKnown = true := hqualified
    refine Iff.trans (Decode.checked_iff rfl) (Iff.trans ?_ (placed_target_iff rfl rfl place).symm)
    simp [inRange_ofNat (haddress place), hcode, hrelation, Kind.isKnown]
  | jump place =>
    refine Iff.trans (Decode.checked_iff rfl) (Iff.trans ?_ (placed_target_iff rfl rfl place).symm)
    simp [inRange_ofNat (haddress place), hcode, Kind.isKnown, Relation.isKnown]
  | print kind =>
    have hkind : kind.isKnown = true := hqualified
    refine iff_of_true ((Decode.checked_iff rfl).mpr ?_) (placed_of_none rfl rfl)
    simp [hkind, Relation.isKnown]
  | arith op =>
    cases op with
    | _ =>
      refine iff_of_true ((Decode.checked_iff rfl).mpr ?_) (placed_of_none rfl rfl)
      simp [Kind.isKnown, Relation.isKnown]
  | undefined op hop => cases hsound
  | _ =>
    refine iff_of_true ((Decode.checked_iff rfl).mpr ?_) (placed_of_none rfl rfl)
    simp [Kind.isKnown, Relation.isKnown]

/-- What corresponds entry by entry holds of both lists or of none. -/
theorem forall_mem_iff {α β : Type} {R : α → β → Prop} {P : α → Prop} {Q : β → Prop}
    {as : List α} {bs : List β} (h : List.Forall₂ R as bs)
    (hR : ∀ a ∈ as, ∀ b ∈ bs, R a b → (Q b ↔ P a)) : (∀ b ∈ bs, Q b) ↔ ∀ a ∈ as, P a := by
  induction h with
  | nil => simp
  | cons hone _ ih =>
    have hfirst := hR _ List.mem_cons_self _ List.mem_cons_self hone
    have hrest := ih fun a ha b hb => hR a (List.mem_cons_of_mem _ ha) b (List.mem_cons_of_mem _ hb)
    rw [List.forall_mem_cons, List.forall_mem_cons, hfirst, hrest]

theorem Assembled.checked_iff {m : Module} {r : Routine} {f : Frame}
    (h : Assembled m.constants r f) (hcode : ∀ i ∈ r.code, i.isMeaningful = true)
    (hnodup : m.constants.toList.Nodup) (hsized : m.Sized) (hf : f ∈ m.routines) :
    f.Checked m ↔ ∀ i ∈ r.code, Placed m.constants r.code i := by
  have hsize := h.size_code
  have hspan : span r.code < 2 ^ 32 := hsize ▸ (hsized.routine f hf).code_lt
  have hall : (∀ c ∈ f.code.toList, c.Checked m f) ↔
      ∀ i ∈ r.code.filter (fun i => !i.isLabel), Placed m.constants r.code i := by
    refine forall_mem_iff h.resolves ?_
    intro i hi c _ hc
    have hmem := List.mem_of_mem_filter hi
    refine hc.checked_iff (hcode i hmem) hnodup hsized.constants_lt hsize hspan ?_
    intro slot hslot
    rw [h.maxLocals]
    exact slot_lt_slots hmem hslot
  constructor
  · intro hchecked i hi
    cases hlabel : i.isLabel with
    | true =>
      obtain ⟨l, rfl⟩ := eq_label_of_isLabel hlabel
      exact placed_of_none rfl rfl
    | false =>
      refine hall.mp (fun c hc => hchecked c (Array.mem_toList_iff.mp hc)) i ?_
      exact List.mem_filter.mpr ⟨hi, by rw [hlabel]; rfl⟩
  · intro hplaced c hc
    exact hall.mpr (fun i hi => hplaced i (List.mem_of_mem_filter hi)) c
      (Array.mem_toList_iff.mpr hc)

end Assemble

/-- A module that was assembled from instructions with a meaning can be loaded if
its jumps stay inside the code and its constants can be numbered, and only then. -/
theorem AsmUnit.defect?_eq_none_iff {unit : AsmUnit} {m : Module} (h : unit.assemble = .ok m)
    (hsized : m.Sized) (hcode : ∀ r ∈ unit.routines, ∀ i ∈ r.code, i.isMeaningful = true) :
    m.defect? = none ↔ m.constants.size ≤ 2 ^ 31 ∧ ∀ r ∈ unit.routines, Enclosed r.code := by
  obtain ⟨_, _, hall, entry, hentry⟩ := assemble_spec h
  have hchecked : (∀ f ∈ m.routines, f.Checked m) ↔
      ∀ r ∈ unit.routines, ∀ i ∈ r.code, Placed m.constants r.code i := by
    refine forall_mem_iff hall ?_
    intro r hr f hf hasm
    exact hasm.checked_iff (hcode r hr) (nodup_constants h) hsized hf
  rw [Module.defect?_eq_none_iff, hchecked]
  constructor
  · rintro ⟨_, hplaced⟩
    refine ⟨?_, ?_⟩
    · -- the last text of the pool stands in the code
      by_contra hlarge
      have hlast : m.constants.size - 1 < m.constants.size := by omega
      have hplace := Array.getElem?_eq_getElem hlast
      obtain ⟨r, hr, htext⟩ := List.mem_flatMap.mp (mem_constants h (Array.getElem_mem hlast))
      obtain ⟨i, hi, htext⟩ := List.mem_filterMap.mp htext
      have hlt := (hplaced r hr i hi).constant _ htext _ hplace
      omega
    · intro r hr l hl
      obtain ⟨i, hi, htarget⟩ := List.mem_filterMap.mp hl
      exact (hplaced r hr i hi).target l htarget
  · rintro ⟨hconstants, henclosed⟩
    refine ⟨⟨entry, hentry⟩, ?_⟩
    intro r hr i hi
    refine ⟨?_, ?_⟩
    · intro l hl
      exact henclosed r hr l (List.mem_filterMap.mpr ⟨i, hi, hl⟩)
    · intro text _ index hindex
      have hlt := (Array.getElem?_eq_some_iff.mp hindex).1
      omega

/-! ## Writing and loading -/

/-- An output that took all pieces holds all of them. -/
theorem Output.eq_append_of_writeAll {output output' : Output} {pieces : List Bytes}
    (h : output.writeAll pieces = (output', true)) : output' = output.append pieces.flatten := by
  induction pieces generalizing output with
  | nil =>
    obtain ⟨rfl, _⟩ := Prod.mk.inj h
    simp [append]
  | cons piece pieces ih =>
    unfold writeAll at h
    split at h
    · rw [ih h, append_append, List.flatten_cons]
    · cases (Prod.mk.inj h).2

namespace Module

theorem encode_eq_none {m : Module} {output output' : Output}
    (h : m.encode output = (output', none)) :
    (Encode.ofModule m).refusal = none ∧
      output' = output.append (Encode.ofModule m).pieces.flatten := by
  unfold encode at h
  cases hwrite : output.writeAll (Encode.ofModule m).pieces with
  | mk written complete =>
    cases hrefusal : (Encode.ofModule m).refusal with
    | some refusal => simp [hwrite, hrefusal] at h
    | none =>
      cases complete with
      | false => simp [hwrite, hrefusal] at h
      | true =>
        simp only [hwrite, hrefusal, if_true, Prod.mk.injEq, and_true] at h
        subst h
        exact ⟨rfl, Output.eq_append_of_writeAll hwrite⟩

/-- What was written of a module is read as the module, or what is wrong with it is
found, if its sizes fit and it has no unused fields. -/
theorem decode_of_encode {m : Module} {output output' : Output}
    (h : m.encode output = (output', none)) (hsized : m.Sized) (hclear : m.clear = m) :
    ∃ bytes, output' = output.append bytes ∧
      decode (.ofBytes bytes) = m.defect?.elim (.ok m) fun defect => .error (.invalid defect) := by
  obtain ⟨_, houtput⟩ := encode_eq_none h
  have hspelled := spelled_clear hsized
  rw [hclear] at hspelled
  have hdecode := decode_of_spelled hspelled [] none
  rw [List.append_nil, ← flatten_pieces hsized.refusal_eq_none] at hdecode
  exact ⟨_, houtput, hdecode⟩

end Module

/-- The sizes of an assembled module fit their fields, if it is not refused. -/
theorem AsmUnit.sized_of_assemble {unit : AsmUnit} {m : Module} (h : unit.assemble = .ok m)
    (hrefusal : (Encode.ofModule m).refusal = none) (hcount : unit.instructionCount < 2 ^ 31)
    (htexts : ∀ text ∈ unit.constants, text.length < 2 ^ 32)
    (hroutines : ∀ r ∈ unit.routines, r.name.length ≤ 65535 ∧ 0 ≤ r.locals) : m.Sized := by
  obtain ⟨_, hconstants, hall, _⟩ := assemble_spec h
  obtain ⟨hname, hlength, hfits⟩ := Encode.refusal_eq_none_iff.mp hrefusal
  refine ⟨hname, by omega, ?_, hlength, ?_⟩
  · intro text htext
    exact htexts text (mem_constants h htext)
  · intro f hf
    obtain ⟨r, hr, hasm⟩ := exists_left_of_mem hall hf
    obtain ⟨hrname, hlocals⟩ := hroutines r hr
    have hspan := span_le_instructionCount hr
    have hslots := locals_le_slots r
    have hcode := hasm.size_code
    obtain ⟨n, _, hdepth⟩ := hasm.depth
    rw [← hasm.maxLocals] at hslots
    -- the two sizes that the encoder looks at itself
    have hfit := Encode.fits_iff.mp (hfits f hf)
    exact ⟨by rw [hasm.name]; exact hrname, by omega, hfit.1, by omega, hfit.2, by omega⟩

end Stackling
