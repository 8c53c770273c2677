import Mathlib.Algebra.Order.Group.Nat
import Mathlib.Data.List.Forall2
import Mathlib.Tactic.Common
import Stackling.Module.Assemble

/-!
# What assembling does to code

Labels take no address, so the address of an instruction is the number of
instructions before it that are not labels (`span`). The two halves of the
assembler's contract are:

* **labels** — a label stands for the address at which it is defined, and a
  routine with a repeated label is refused (`address?_of_split`,
  `firstRepeat?_eq_none_iff`);
* **code** — the resolved code has one entry for each instruction that is not a
  label, in order, and each entry `Resolves` its instruction
  (`resolveAll_spec`).

`Assembled` collects what is known of a routine that was accepted, and
`assemble_spec` gives it for every routine of a unit.
-/

namespace Stackling

/-- The larger pool keeps every text at its place. -/
def Pool.Extends (small large : Pool) : Prop :=
  ∀ (index : Nat) (text : Bytes), small[index]? = some text → large[index]? = some text

namespace Pool

theorem Extends.refl (pool : Pool) : pool.Extends pool := fun _ _ h => h

theorem Extends.trans {a b c : Pool} (hab : a.Extends b) (hbc : b.Extends c) : a.Extends c :=
  fun index text h => hbc index text (hab index text h)

end Pool

namespace Interner

/-- Interning finds the text, or adds it at the end. -/
theorem intern_spec (pool : Interner) (text : Bytes) :
    pool.texts.Extends (pool.intern text).1.texts ∧
      (pool.intern text).1.texts[(pool.intern text).2]? = some text ∧
      (pool.intern text).1.texts.size ≤ pool.texts.size + 1 := by
  unfold intern
  split
  · rename_i place hplace
    exact ⟨.refl pool.texts, (pool.agrees text place).mp hplace, Nat.le_succ _⟩
  · refine ⟨?_, by simp, by simp⟩
    intro index other hother
    obtain ⟨hlt, _⟩ := Array.getElem?_eq_some_iff.mp hother
    rw [Array.getElem?_push, if_neg (by omega), hother]

/-- No text stands at two places, since the index has one place for it. -/
theorem nodup (pool : Interner) : pool.texts.toList.Nodup := by
  rw [List.nodup_iff_pairwise_ne, List.pairwise_iff_getElem]
  intro i j hi hj hij heq
  have hfirst : pool.texts[i]? = some pool.texts.toList[i] := by
    rw [← Array.getElem?_toList, List.getElem?_eq_getElem hi]
  have hsecond : pool.texts[j]? = some pool.texts.toList[i] := by
    rw [heq, ← Array.getElem?_toList, List.getElem?_eq_getElem hj]
  rw [← pool.agrees] at hfirst hsecond
  have hplace := Option.some.inj (hfirst.symm.trans hsecond)
  omega

end Interner

/-- The label that an instruction goes to. -/
def Instruction.target? : Instruction → Option Label
  | .branch _ l | .jump l => some l
  | _ => none

namespace Assemble

/-! ## Addresses and labels -/

/-- How many addresses code takes up. -/
def span (code : List Instruction) : Nat := code.countP fun i => !i.isLabel

@[simp] theorem span_nil : span [] = 0 := rfl

@[simp] theorem span_append (first rest : List Instruction) :
    span (first ++ rest) = span first + span rest := by
  simp [span]

@[simp] theorem span_cons_label (l : Label) (code : List Instruction) :
    span (.label l :: code) = span code := by
  simp [span, Instruction.isLabel]

theorem span_cons {i : Instruction} (hi : i.isLabel = false) (code : List Instruction) :
    span (i :: code) = span code + 1 := by
  simp [span, hi]

theorem span_eq_length_filter (code : List Instruction) :
    span code = (code.filter fun i => !i.isLabel).length :=
  List.countP_eq_length_filter

theorem eq_label_of_isLabel {i : Instruction} (h : i.isLabel = true) : ∃ l, i = .label l := by
  cases i <;> simp_all [Instruction.isLabel]

@[simp] theorem labels_nil : labels [] = [] := rfl

@[simp] theorem labels_append (first rest : List Instruction) :
    labels (first ++ rest) = labels first ++ labels rest := by
  simp [labels]

@[simp] theorem labels_cons_label (l : Label) (code : List Instruction) :
    labels (.label l :: code) = l :: labels code := rfl

theorem labels_cons {i : Instruction} (hi : i.isLabel = false) (code : List Instruction) :
    labels (i :: code) = labels code := by
  cases i <;> simp_all [labels, Instruction.isLabel]

/-- The labels that code goes to. -/
def targets (code : List Instruction) : List Label := code.filterMap Instruction.target?

@[simp] theorem targets_nil : targets [] = [] := rfl

@[simp] theorem targets_append (first rest : List Instruction) :
    targets (first ++ rest) = targets first ++ targets rest := by
  simp [targets]

theorem targets_cons (i : Instruction) (code : List Instruction) :
    targets (i :: code) = i.target?.toList ++ targets code := by
  cases h : i.target? <;> simp [targets, h]

/-- Code has no repeated label exactly when its labels are pairwise different
and new. -/
theorem firstRepeat?_eq_none_iff {seen ls : List Label} :
    firstRepeat? seen ls = none ↔ ls.Nodup ∧ ∀ l ∈ ls, l ∉ seen := by
  induction ls generalizing seen with
  | nil => simp [firstRepeat?]
  | cons l ls ih =>
    simp only [firstRepeat?, List.contains_eq_mem, decide_eq_true_eq]
    by_cases hl : l ∈ seen
    · simp [hl]
    · rw [if_neg hl, ih, List.nodup_cons]
      constructor
      · rintro ⟨hnodup, hnew⟩
        refine ⟨⟨fun hmem => (hnew l hmem) List.mem_cons_self, hnodup⟩, ?_⟩
        intro other hother
        rcases List.mem_cons.mp hother with rfl | hmem
        · exact hl
        · exact fun h => hnew other hmem (List.mem_cons_of_mem _ h)
      · rintro ⟨⟨hfresh, hnodup⟩, hnew⟩
        refine ⟨hnodup, fun other hmem h => ?_⟩
        rcases List.mem_cons.mp h with rfl | h
        · exact hfresh hmem
        · exact hnew other (List.mem_cons_of_mem _ hmem) h

/-- A label stands for the address at which it is defined first. -/
theorem addressFrom?_of_split {l : Label} {first : List Instruction} (hl : l ∉ labels first)
    (rest : List Instruction) (base : Nat) :
    addressFrom? l base (first ++ .label l :: rest) = some (base + span first) := by
  induction first generalizing base with
  | nil => simp [addressFrom?]
  | cons i first ih =>
    cases hi : i.isLabel with
    | true =>
      obtain ⟨name, rfl⟩ := eq_label_of_isLabel hi
      simp only [labels_cons_label, List.mem_cons, not_or] at hl
      rw [List.cons_append, addressFrom?, if_neg (fun h => hl.1 h.symm), ih hl.2]
      simp
    | false =>
      rw [labels_cons hi] at hl
      have hskip : addressFrom? l base (i :: (first ++ .label l :: rest))
          = addressFrom? l (base + 1) (first ++ .label l :: rest) := by
        cases i <;> simp_all [addressFrom?, Instruction.isLabel]
      rw [List.cons_append, hskip, ih hl, span_cons hi]
      congr 1
      omega

theorem address?_of_split {l : Label} {first : List Instruction} (hl : l ∉ labels first)
    (rest : List Instruction) :
    address? (first ++ .label l :: rest) l = some (span first) := by
  simpa [address?] using addressFrom?_of_split hl rest 0

/-- A label that code defines has a first definition. -/
theorem split_of_mem_labels {l : Label} {code : List Instruction} (h : l ∈ labels code) :
    ∃ first rest, code = first ++ .label l :: rest ∧ l ∉ labels first := by
  induction code with
  | nil => simp at h
  | cons i code ih =>
    by_cases hi : i = .label l
    · exact ⟨[], code, by simp [hi], by simp⟩
    · have hmem : l ∈ labels code := by
        cases hlabel : i.isLabel with
        | false => rwa [labels_cons hlabel] at h
        | true =>
          obtain ⟨name, rfl⟩ := eq_label_of_isLabel hlabel
          rcases List.mem_cons.mp h with rfl | hmem
          · exact absurd rfl hi
          · exact hmem
      obtain ⟨first, rest, rfl, hfresh⟩ := ih hmem
      refine ⟨i :: first, rest, rfl, ?_⟩
      cases hlabel : i.isLabel with
      | false => rwa [labels_cons hlabel]
      | true =>
        obtain ⟨name, rfl⟩ := eq_label_of_isLabel hlabel
        simp only [labels_cons_label, List.mem_cons, not_or]
        exact ⟨fun h => hi (by rw [h]), hfresh⟩

theorem mem_labels_of_addressFrom? {l : Label} {base a : Nat} {code : List Instruction}
    (h : addressFrom? l base code = some a) : l ∈ labels code := by
  fun_induction addressFrom? l base code with
  | case1 => simp at h
  | case2 => simp
  | case3 base name code hne ih => simpa using Or.inr (ih h)
  | case4 base i code hne ih =>
    have hi : i.isLabel = false := by
      by_contra hlabel
      obtain ⟨name, rfl⟩ := eq_label_of_isLabel (Bool.not_eq_false _ ▸ hlabel)
      exact hne name rfl
    rw [labels_cons hi]
    exact ih h

/-- A label with an address is defined there, and nowhere before. -/
theorem split_of_address? {l : Label} {a : Nat} {code : List Instruction}
    (h : address? code l = some a) :
    ∃ first rest, code = first ++ .label l :: rest ∧ l ∉ labels first ∧ a = span first := by
  obtain ⟨first, rest, rfl, hfresh⟩ := split_of_mem_labels (mem_labels_of_addressFrom? h)
  rw [address?_of_split hfresh] at h
  exact ⟨first, rest, rfl, hfresh, (Option.some.inj h).symm⟩

/-- Where labels are not repeated, a label is not defined before its place. -/
theorem not_mem_labels_of_nodup {l : Label} {first rest : List Instruction}
    (h : (labels (first ++ .label l :: rest)).Nodup) : l ∉ labels first := by
  rw [labels_append, labels_cons_label] at h
  intro hmem
  exact (List.nodup_append.mp h).2.2 l hmem l List.mem_cons_self rfl

/-- Every address of code is the address of an instruction. -/
theorem split_of_lt_span {code : List Instruction} {a : Nat} (h : a < span code) :
    ∃ first i rest, code = first ++ i :: rest ∧ i.isLabel = false ∧ span first = a := by
  induction code generalizing a with
  | nil => simp at h
  | cons i code ih =>
    cases hi : i.isLabel with
    | true =>
      obtain ⟨name, rfl⟩ := eq_label_of_isLabel hi
      rw [span_cons_label] at h
      obtain ⟨first, j, rest, rfl, hj, rfl⟩ := ih h
      exact ⟨.label name :: first, j, rest, rfl, hj, by simp⟩
    | false =>
      cases a with
      | zero => exact ⟨[], i, code, rfl, hi, rfl⟩
      | succ a =>
        rw [span_cons hi] at h
        obtain ⟨first, j, rest, rfl, hj, rfl⟩ := ih (by omega : a < span code)
        exact ⟨i :: first, j, rest, rfl, hj, span_cons hi first⟩

/-- Code that stands in its place: from the address `base` on, `whole` is `rest`. -/
def StandsAt (whole : List Instruction) (base : Nat) (rest : List Instruction) : Prop :=
  ∃ before, whole = before ++ rest ∧ span before = base

section StandsAt

variable {whole first rest : List Instruction} {base : Nat} {i : Instruction} {l : Label}

theorem StandsAt.append (h : StandsAt whole base (first ++ rest)) :
    StandsAt whole (base + span first) rest := by
  obtain ⟨before, rfl, rfl⟩ := h
  exact ⟨before ++ first, by simp, by simp⟩

theorem StandsAt.next (h : StandsAt whole base (i :: rest)) (hi : i.isLabel = false) :
    StandsAt whole (base + 1) rest := by
  obtain ⟨before, rfl, rfl⟩ := h
  exact ⟨before ++ [i], by simp, by rw [span_append, span_cons hi, span_nil]⟩

theorem StandsAt.afterLabel (h : StandsAt whole base (.label l :: rest)) :
    StandsAt whole base rest := by
  obtain ⟨before, rfl, rfl⟩ := h
  exact ⟨before ++ [.label l], by simp, by simp⟩

end StandsAt

/-- Addresses of code that is not too long are machine integers. -/
theorem toInt_of_address? {whole : List Instruction} {l : Label} {a : Nat}
    (h : address? whole l = some a) (hspan : span whole < 2 ^ 31) : (Int32.ofNat a).toInt = a := by
  obtain ⟨first, rest, rfl, _, rfl⟩ := split_of_address? h
  refine Int32.toInt_ofNat_of_lt ?_
  rw [span_append] at hspan
  omega

/-! ## Resolved code -/

/-- The code that stands for an instruction when labels have the given addresses
and texts their places in the pool. -/
inductive Resolves (address : Label → Option Nat) (pool : Pool) : Instruction → Code → Prop
  | pushInt (value : Int32) :
      Resolves address pool (.pushInt value) { op := Opcode.pushInt.byte, operand := value }
  | pushText {text : Bytes} {index : Nat} (place : pool[index]? = some text) :
      Resolves address pool (.pushText text)
        { op := Opcode.pushText.byte, kind := .ref, operand := Int32.ofNat index }
  | load (kind : Kind) (slot : Int32) :
      Resolves address pool (.load kind slot) { op := Opcode.load.byte, kind, operand := slot }
  | store (kind : Kind) (slot : Int32) :
      Resolves address pool (.store kind slot) { op := Opcode.store.byte, kind, operand := slot }
  | arith (op : Arith) : Resolves address pool (.arith op) { op := op.opcode.byte }
  | branch {target : Label} {a : Nat} (relation : Relation) (place : address target = some a) :
      Resolves address pool (.branch relation target)
        { op := Opcode.branch.byte, relation, operand := Int32.ofNat a }
  | jump {target : Label} {a : Nat} (place : address target = some a) :
      Resolves address pool (.jump target)
        { op := Opcode.jump.byte, operand := Int32.ofNat a }
  | openOutput : Resolves address pool .openOutput { op := Opcode.openOutput.byte }
  | openInput : Resolves address pool .openInput { op := Opcode.openInput.byte }
  | print (kind : Kind) :
      Resolves address pool (.print kind) { op := Opcode.print.byte, kind }
  | readInt : Resolves address pool .readInt { op := Opcode.readInt.byte }
  | readLine : Resolves address pool .readLine { op := Opcode.readLine.byte }
  | ret : Resolves address pool .ret { op := Opcode.ret.byte }
  | undefined (op : UInt8) (h : Opcode.ofByte? op = none) :
      Resolves address pool (.undefined op h) { op }

/-- A larger pool resolves what a smaller one does. -/
theorem Resolves.mono {address : Label → Option Nat} {small large : Pool} {i : Instruction}
    {c : Code} (h : Resolves address small i c) (hext : small.Extends large) :
    Resolves address large i c := by
  cases h with
  | pushText place => exact .pushText (hext _ _ place)
  | branch relation place => exact .branch relation place
  | jump place => exact .jump place
  | _ => constructor

theorem Resolves.op_eq {address : Label → Option Nat} {pool : Pool} {i : Instruction} {c : Code}
    (h : Resolves address pool i c) : c.op = i.op := by
  cases h <;> rfl

/-- One instruction: a label gives nothing, every other instruction one code. -/
theorem resolve_spec {address : Label → Option Nat} {pool pool' : Interner} {i : Instruction}
    {code? : Option Code} (h : resolve address pool i = (pool', .ok code?)) :
    pool.texts.Extends pool'.texts ∧ pool'.texts.size ≤ pool.texts.size + span [i] ∧
      if i.isLabel then code? = none
      else ∃ c, code? = some c ∧ Resolves address pool'.texts i c := by
  cases i with
  | pushText text =>
    obtain ⟨hext, hplace, hsize⟩ := Interner.intern_spec pool text
    simp only [resolve, Prod.mk.injEq, Except.ok.injEq] at h
    obtain ⟨rfl, rfl⟩ := h
    exact ⟨hext, hsize, _, rfl, .pushText hplace⟩
  | branch relation target =>
    simp only [resolve] at h
    split at h
    · rename_i a ha
      simp only [Prod.mk.injEq, Except.ok.injEq] at h
      obtain ⟨rfl, rfl⟩ := h
      exact ⟨Pool.Extends.refl pool.texts, by simp, _, rfl, .branch relation ha⟩
    · simp at h
  | jump target =>
    simp only [resolve] at h
    split at h
    · rename_i a ha
      simp only [Prod.mk.injEq, Except.ok.injEq] at h
      obtain ⟨rfl, rfl⟩ := h
      exact ⟨Pool.Extends.refl pool.texts, by simp, _, rfl, .jump ha⟩
    · simp at h
  | label name =>
    simp only [resolve, Prod.mk.injEq, Except.ok.injEq] at h
    obtain ⟨rfl, rfl⟩ := h
    exact ⟨Pool.Extends.refl pool.texts, by simp, rfl⟩
  | _ =>
    simp only [resolve, Prod.mk.injEq, Except.ok.injEq] at h
    obtain ⟨rfl, rfl⟩ := h
    exact ⟨Pool.Extends.refl pool.texts, by simp, _, rfl, by constructor⟩

/-- All of the code: one entry for each instruction that is not a label. -/
theorem resolveAll_spec {address : Label → Option Nat} {pool pool' : Interner}
    {code : List Instruction} {codes : List Code}
    (h : resolveAll address pool code = (pool', .ok codes)) :
    pool.texts.Extends pool'.texts ∧ pool'.texts.size ≤ pool.texts.size + span code ∧
      List.Forall₂ (Resolves address pool'.texts) (code.filter fun i => !i.isLabel) codes := by
  induction code generalizing pool codes with
  | nil =>
    simp only [resolveAll, Prod.mk.injEq, Except.ok.injEq] at h
    obtain ⟨rfl, rfl⟩ := h
    exact ⟨Pool.Extends.refl pool.texts, by simp, by simp⟩
  | cons i code ih =>
    simp only [resolveAll] at h
    split at h
    · simp at h
    · rename_i middle code? hi
      split at h
      · simp at h
      · rename_i last more hmore
        simp only [Prod.mk.injEq, Except.ok.injEq] at h
        obtain ⟨rfl, rfl⟩ := h
        obtain ⟨hext, hsize, hone⟩ := resolve_spec hi
        obtain ⟨hextAll, hsizeAll, hall⟩ := ih hmore
        -- only what is no label takes an address
        have hspan : span (i :: code) = span [i] + span code := span_append [i] code
        refine ⟨hext.trans hextAll, by omega, ?_⟩
        cases hlabel : i.isLabel with
        | true =>
          simp only [hlabel, if_true] at hone
          simpa [hone, hlabel] using hall
        | false =>
          simp only [hlabel, Bool.false_eq_true, if_false] at hone
          obtain ⟨c, rfl, hc⟩ := hone
          simpa [hlabel] using And.intro (hc.mono hextAll) hall

/-- Code resolves when all its jumps have somewhere to go. -/
theorem resolveAll_ok {address : Label → Option Nat} (code : List Instruction) (pool : Interner)
    (h : ∀ l ∈ targets code, (address l).isSome) :
    ∃ pool' codes, resolveAll address pool code = (pool', .ok codes) := by
  induction code generalizing pool with
  | nil => exact ⟨pool, [], rfl⟩
  | cons i code ih =>
    rw [targets_cons, List.forall_mem_append] at h
    have hone : ∃ middle code?, resolve address pool i = (middle, .ok code?) := by
      cases i with
      | branch relation target =>
        obtain ⟨a, ha⟩ := Option.isSome_iff_exists.mp (h.1 target List.mem_cons_self)
        exact ⟨pool, _, by simp only [resolve, ha]; rfl⟩
      | jump target =>
        obtain ⟨a, ha⟩ := Option.isSome_iff_exists.mp (h.1 target List.mem_cons_self)
        exact ⟨pool, _, by simp only [resolve, ha]; rfl⟩
      | _ => exact ⟨_, _, rfl⟩
    obtain ⟨middle, code?, hi⟩ := hone
    obtain ⟨last, codes, hall⟩ := ih middle h.2
    exact ⟨last, code?.toList ++ codes, by simp only [resolveAll, hi, hall]⟩

/-! ## Routines and units -/

/-- What is known of code that was resolved, its labels being different. -/
structure Resolved (pool : Pool) (code : List Instruction) (codes : Array Code) : Prop where
  labels_nodup : (labels code).Nodup
  resolves : List.Forall₂ (Resolves (address? code) pool)
    (code.filter fun i => !i.isLabel) codes.toList

/-- What is known of a routine that was assembled to a frame. -/
structure Assembled (pool : Pool) (r : Routine) (f : Frame) : Prop
    extends Resolved pool r.code f.code where
  name : f.name = r.name
  depth : ∃ n : Nat, StackDepth.compute f.code = .ok n ∧ f.maxStack = n
  maxLocals : f.maxLocals = slots r

theorem Assembled.mono {small large : Pool} {r : Routine} {f : Frame}
    (h : Assembled small r f) (hext : small.Extends large) : Assembled large r f :=
  { h with resolves := h.resolves.imp fun _ _ hc => hc.mono hext }

/-- Resolved code has as many entries as the code takes addresses. -/
theorem Resolved.size_code {pool : Pool} {code : List Instruction} {codes : Array Code}
    (h : Resolved pool code codes) : codes.size = span code := by
  rw [span_eq_length_filter, h.resolves.length_eq, Array.length_toList]

/-- The entry for an instruction stands at the instruction's address. -/
theorem Resolved.code_of_split {pool : Pool} {code : List Instruction} {codes : Array Code}
    (h : Resolved pool code codes) {first rest : List Instruction} {i : Instruction}
    (hcode : code = first ++ i :: rest) (hi : i.isLabel = false) :
    ∃ c, codes[span first]? = some c ∧ Resolves (address? code) pool i c := by
  have hall := h.resolves
  rw [hcode, List.filter_append, List.filter_cons_of_pos (by simp [hi]), ← hcode] at hall
  have hlt : span first < codes.toList.length := by
    rw [← hall.length_eq, span_eq_length_filter]
    simp
  refine ⟨codes.toList[span first], ?_, ?_⟩
  · simp [← Array.getElem?_toList, List.getElem?_eq_getElem hlt]
  · have hget := hall.get (i := span first) (by simp [span_eq_length_filter]) hlt
    simpa [span_eq_length_filter] using hget

/-- A label that is defined in resolved code stands for the place after what is
before it. -/
theorem Resolved.address?_eq {pool : Pool} {code : List Instruction} {codes : Array Code}
    (h : Resolved pool code codes) {first rest : List Instruction} {l : Label}
    (hcode : code = first ++ .label l :: rest) : address? code l = some (span first) := by
  have hnodup := h.labels_nodup
  rw [hcode] at hnodup ⊢
  exact address?_of_split (not_mem_labels_of_nodup hnodup) rest

theorem Resolved.code_at {pool : Pool} {whole rest : List Instruction} {codes : Array Code}
    {base : Nat} {i : Instruction} (h : Resolved pool whole codes)
    (hat : StandsAt whole base (i :: rest)) (hi : i.isLabel = false) :
    ∃ c, codes[base]? = some c ∧ Resolves (address? whole) pool i c := by
  obtain ⟨before, hwhole, rfl⟩ := hat
  exact h.code_of_split hwhole hi

theorem Resolved.address_at {pool : Pool} {whole rest : List Instruction} {codes : Array Code}
    {base : Nat} {l : Label} (h : Resolved pool whole codes)
    (hat : StandsAt whole base (.label l :: rest)) : address? whole l = some base := by
  obtain ⟨before, hwhole, rfl⟩ := hat
  exact h.address?_eq hwhole

theorem routine_spec {pool pool' : Interner} {r : Routine} {f : Frame}
    (h : routine pool r = (pool', .ok f)) :
    pool.texts.Extends pool'.texts ∧ pool'.texts.size ≤ pool.texts.size + span r.code ∧
      Assembled pool'.texts r f := by
  unfold routine at h
  split at h
  · simp at h
  · rename_i hlabels
    split at h
    · simp at h
    · rename_i last codes hcodes
      split at h
      · simp at h
      · rename_i n hn
        simp only [Prod.mk.injEq, Except.ok.injEq] at h
        obtain ⟨rfl, rfl⟩ := h
        obtain ⟨hext, hsize, hall⟩ := resolveAll_spec hcodes
        have hresolved : Resolved last.texts r.code codes.toArray :=
          ⟨(firstRepeat?_eq_none_iff.mp hlabels).1, by simpa using hall⟩
        exact ⟨hext, hsize, hresolved, rfl, ⟨n, hn, rfl⟩, rfl⟩

/-- A routine can be assembled if no label is repeated, every target is defined,
and the depth of what it resolves to is known. -/
theorem routine_ok {r : Routine} {n : Nat} (pool : Interner) (hnodup : (labels r.code).Nodup)
    (htargets : targets r.code ⊆ labels r.code)
    (hdepth : ∀ pool' codes, Resolved pool' r.code codes → StackDepth.compute codes = .ok n) :
    ∃ pool' f, routine pool r = (pool', .ok f) ∧ f.name = r.name ∧ f.maxStack = n := by
  have hrepeat : firstRepeat? [] (labels r.code) = none :=
    firstRepeat?_eq_none_iff.mpr ⟨hnodup, by simp⟩
  have haddress : ∀ l ∈ targets r.code, (address? r.code l).isSome := by
    intro l hl
    obtain ⟨first, rest, hcode, hfresh⟩ := split_of_mem_labels (htargets hl)
    rw [hcode, address?_of_split hfresh]
    rfl
  obtain ⟨pool', codes, hcodes⟩ := resolveAll_ok r.code pool haddress
  obtain ⟨_, _, hall⟩ := resolveAll_spec hcodes
  have hcompute := hdepth pool'.texts codes.toArray ⟨hnodup, by simpa using hall⟩
  exact ⟨pool', _, by simp only [routine, hrepeat, hcodes, hcompute]; rfl, rfl, rfl⟩

theorem routines_spec {seen : List Bytes} {pool pool' : Interner} {rs : List Routine}
    {fs : List Frame} (h : routines seen pool rs = (pool', .ok fs)) :
    pool.texts.Extends pool'.texts ∧
      pool'.texts.size ≤ pool.texts.size + span (rs.flatMap (·.code)) ∧
      List.Forall₂ (Assembled pool'.texts) rs fs := by
  induction rs generalizing seen pool fs with
  | nil =>
    simp only [routines, Prod.mk.injEq, Except.ok.injEq] at h
    obtain ⟨rfl, rfl⟩ := h
    exact ⟨Pool.Extends.refl pool.texts, by simp, .nil⟩
  | cons r rs ih =>
    simp only [routines] at h
    split at h
    · simp at h
    · split at h
      · simp at h
      · rename_i middle f hf
        split at h
        · simp at h
        · rename_i last more hmore
          simp only [Prod.mk.injEq, Except.ok.injEq] at h
          obtain ⟨rfl, rfl⟩ := h
          obtain ⟨hext, hsize, hone⟩ := routine_spec hf
          obtain ⟨hextAll, hsizeAll, hall⟩ := ih hmore
          refine ⟨hext.trans hextAll, ?_, .cons (hone.mono hextAll) hall⟩
          rw [List.flatMap_cons, span_append]
          omega

end Assemble

open Assemble

theorem AsmUnit.span_le_instructionCount {unit : AsmUnit} {r : Routine}
    (h : r ∈ unit.routines) : span r.code ≤ unit.instructionCount := by
  obtain ⟨first, rest, hroutines⟩ := List.append_of_mem h
  have hcount : unit.instructionCount = span (unit.routines.flatMap (·.code)) := rfl
  rw [hcount, hroutines, List.flatMap_append, List.flatMap_cons, span_append, span_append]
  omega

/-- A unit that is assembled gives a frame for each routine, and one of them is
the entry. The pool may hold texts already. -/
theorem AsmUnit.assembleWith_spec {unit : AsmUnit} {pool : Interner} {m : Module}
    (h : (unit.assembleWith pool).2 = .ok m) :
    m.name = unit.name ∧ m.constants.size ≤ pool.texts.size + unit.instructionCount ∧
      List.Forall₂ (Assembled m.constants) unit.routines m.routines ∧
      ∃ f, m.entry? = some f := by
  unfold assembleWith at h
  split at h
  · simp at h
  · rename_i pool frames hframes
    split at h
    · rename_i hentry
      simp only [Except.ok.injEq] at h
      subst h
      obtain ⟨_, hsize, hall⟩ := routines_spec hframes
      refine ⟨rfl, hsize, hall, ?_⟩
      exact Option.isSome_iff_exists.mp (by
        simpa [Module.entry?, Module.find?, List.find?_isSome] using hentry)
    · simp at h

theorem AsmUnit.assemble_spec {unit : AsmUnit} {m : Module} (h : unit.assemble = .ok m) :
    m.name = unit.name ∧ m.constants.size ≤ unit.instructionCount ∧
      List.Forall₂ (Assembled m.constants) unit.routines m.routines ∧
      ∃ f, m.entry? = some f := by
  obtain ⟨hname, hsize, hall, hentry⟩ := assembleWith_spec h
  exact ⟨hname, by simpa using hsize, hall, hentry⟩

/-- A unit of one routine, the entry, can be assembled if the routine can. -/
theorem AsmUnit.assemble_single {name : Bytes} {r : Routine} {n : Nat} (hname : r.name = entryName)
    (h : ∀ pool, ∃ pool' f, routine pool r = (pool', .ok f) ∧ f.name = r.name ∧ f.maxStack = n) :
    ∃ m f, AsmUnit.assemble { name, routines := [r] } = .ok m ∧ m.entry? = some f ∧
      f.maxStack = n := by
  obtain ⟨pool', f, hroutine, hf, hmax⟩ := h .empty
  have hroutines : Assemble.routines [] .empty [r] = (pool', .ok [f]) := by
    simp [Assemble.routines, hroutine]
  refine ⟨{ name, constants := pool'.texts, routines := [f] }, f, ?_, ?_, hmax⟩
  · simp [assemble, assembleWith, hroutines, hf, hname]
  · simp [Module.entry?, Module.find?, hf, hname]

/-- What stands on the right of related lists is related to something on the left. -/
theorem exists_left_of_mem {α β : Type} {R : α → β → Prop} {as : List α} {bs : List β}
    (h : List.Forall₂ R as bs) {b : β} (hb : b ∈ bs) : ∃ a ∈ as, R a b := by
  induction h with
  | nil => simp at hb
  | cons hone _ ih =>
    rcases List.mem_cons.mp hb with rfl | hb
    · exact ⟨_, List.mem_cons_self, hone⟩
    · obtain ⟨a, ha, hab⟩ := ih hb
      exact ⟨a, List.mem_cons_of_mem _ ha, hab⟩

/-- The entry of an assembled module comes from a routine of that name. -/
theorem AsmUnit.assemble_entry {unit : AsmUnit} {m : Module} (h : unit.assemble = .ok m) :
    ∃ r ∈ unit.routines, ∃ f, m.entry? = some f ∧ r.name = entryName ∧
      Assembled m.constants r f := by
  obtain ⟨_, _, hall, f, hf⟩ := assemble_spec h
  have hname : f.name = entryName := by
    simpa using List.find?_some hf
  obtain ⟨r, hr, hasm⟩ := exists_left_of_mem hall (List.mem_of_find?_eq_some hf)
  exact ⟨r, hr, f, hf, hasm.name ▸ hname, hasm⟩

end Stackling
