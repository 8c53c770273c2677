import Mathlib.Algebra.Order.Group.Nat
import Mathlib.Data.List.Dedup
import Mathlib.Data.List.Forall2
import Mathlib.Data.List.Perm.Subperm
import Mathlib.Tactic.Common
import Stackling.Proofs.Machine.Run
import Stackling.Proofs.Module.Loadable

/-!
# Units that share a pool

Units may be assembled one after another with one pool. Some of them may be
refused, at any routine; what they have added to the pool stays there.

* **one unit** — whatever comes of it, texts are added at the end of the pool
  only (`AsmUnit.prefix_assembleWith`), and no text is added twice
  (`Interner.nodup`);
* **many units** — so the constants of a module are the first ones of every later
  pool (`AsmUnit.assembleAll_ok`) and of every later module
  (`AsmUnit.prefix_of_assembleAll`);
* **runs** — and a machine that looks the texts of a module up in a later pool
  finds the same ones (`Machine.advance_withConstants`).

`AsmUnit.assembleAll_shares` puts this together.
-/

namespace Stackling

open Assemble

/-! ## Texts and their places -/

/-- All the texts that a frame pushes stand in the pool. -/
def Frame.Finds (f : Frame) (pool : Pool) : Prop :=
  ∀ c ∈ f.code, c.opcode? = some .pushText →
    ∃ (index : Nat) (text : Bytes), c.operand.toInt = index ∧ pool[index]? = some text

namespace Assemble

/-- An instruction and its code agree on texts: the code pushes a text constant
only if the instruction does, and then its operand is the place of that text. -/
structure SameText (pool : Pool) (i : Instruction) (c : Code) : Prop where
  pushes : c.opcode? = some .pushText → ∃ text, i = .pushText text
  place : ∀ text, i = .pushText text →
    c.opcode? = some .pushText ∧ ∃ index : Nat, c.operand.toInt = index ∧ pool[index]? = some text

theorem sameText_of_none {pool : Pool} {i : Instruction} {c : Code} (hi : i.constant? = none)
    (hc : c.opcode? ≠ some .pushText) : SameText pool i c := by
  refine ⟨fun hop => absurd hop hc, ?_⟩
  rintro text rfl
  cases hi

/-- Resolved code has the places of its texts, if the places can be numbered. -/
theorem Resolves.sameText {address : Label → Option Nat} {pool : Pool} {i : Instruction} {c : Code}
    (h : Resolves address pool i c) (hsize : pool.size < 2 ^ 31) : SameText pool i c := by
  cases h with
  | @pushText text index place =>
    have hlt : index < pool.size := (Array.getElem?_eq_some_iff.mp place).1
    refine ⟨fun _ => ⟨text, rfl⟩, ?_⟩
    intro other hother
    obtain rfl : text = other := Instruction.pushText.inj hother
    exact ⟨rfl, index, Int32.toInt_ofNat_of_lt (by omega), place⟩
  | arith op =>
    apply sameText_of_none rfl
    cases op <;> exact fun h => by cases h
  | undefined op hop =>
    apply sameText_of_none rfl
    intro h
    rw [show Code.opcode? { op } = none from hop] at h
    cases h
  | _ => exact sameText_of_none rfl fun h => by cases h

/-- The code of a routine agrees with its instructions on texts, entry by entry. -/
def SameTexts (pool : Pool) (r : Routine) (f : Frame) : Prop :=
  List.Forall₂ (SameText pool) (r.code.filter fun i => !i.isLabel) f.code.toList

theorem Assembled.sameTexts {pool : Pool} {r : Routine} {f : Frame} (h : Assembled pool r f)
    (hsize : pool.size < 2 ^ 31) : SameTexts pool r f :=
  h.resolves.imp fun _ _ hc => hc.sameText hsize

theorem SameTexts.finds {pool : Pool} {r : Routine} {f : Frame} (h : SameTexts pool r f) :
    f.Finds pool := by
  intro c hc hop
  obtain ⟨i, _, hi⟩ := exists_left_of_mem h (Array.mem_toList_iff.mpr hc)
  obtain ⟨text, rfl⟩ := hi.pushes hop
  obtain ⟨_, index, hindex, hplace⟩ := hi.place text rfl
  exact ⟨index, text, hindex, hplace⟩

end Assemble

/-! ## Runs with another pool -/

section WithConstants

variable {m : Module} {f : Frame} {pool : Pool} {limits : Limits}

theorem State.execute_withConstants {c : Code} (hc : c ∈ f.code) (hfinds : f.Finds m.constants)
    (hext : Pool.Extends m.constants pool) (s : State) :
    s.execute { m with constants := pool } f c = s.execute m f c := by
  unfold execute
  cases hop : c.opcode? with
  | none => rfl
  | some op =>
    cases op with
    | pushText =>
      -- the only operation that looks a text up
      obtain ⟨index, text, hindex, hplace⟩ := hfinds c hc hop
      have hplace' := hext index text hplace
      have hnat : c.operand.toInt = Int.ofNat index := hindex
      simp only [pushConstant, hnat, hplace, hplace']
    | _ => rfl

theorem Machine.turn_withConstants (hfinds : f.Finds m.constants)
    (hext : Pool.Extends m.constants pool) (s : State) :
    turn { m with constants := pool } f limits s = turn m f limits s := by
  unfold turn
  cases hcode : f.code[s.pc]? with
  | none => rfl
  | some c =>
    have hsame := State.execute_withConstants (Array.mem_of_getElem? hcode) hfinds hext
      { s with steps := s.steps + 1 }
    simp only [hsame]

/-- A run is the same with every pool that has kept the texts of the module. -/
theorem Machine.advance_withConstants (hfinds : f.Finds m.constants)
    (hext : Pool.Extends m.constants pool) (n : Nat) (status : Status) :
    advance { m with constants := pool } f limits n status = advance m f limits n status := by
  induction n generalizing status with
  | zero => rw [advance_zero, advance_zero]
  | succ n ih =>
    cases status with
    | stopped outcome s => rw [advance_stopped, advance_stopped]
    | running s => rw [advance_succ, advance_succ, turn_withConstants hfinds hext, ih]

end WithConstants

/-! ## One unit after another -/

theorem Pool.extends_of_prefix {small large : Pool} (h : small.toList <+: large.toList) :
    small.Extends large := by
  intro index text hplace
  obtain ⟨rest, hrest⟩ := h
  rw [← Array.getElem?_toList] at hplace ⊢
  obtain ⟨hlt, _⟩ := List.getElem?_eq_some_iff.mp hplace
  rw [← hrest, List.getElem?_append_left hlt, hplace]

theorem Interner.prefix_intern (pool : Interner) (text : Bytes) :
    pool.texts.toList <+: (pool.intern text).1.texts.toList := by
  unfold intern
  split
  · exact List.prefix_rfl
  · rw [Array.toList_push]
    exact List.prefix_append _ _

/-- A text that is in two pools, one of which starts the other, has one place. -/
theorem Pool.place_unique {small large : Pool} (h : small.toList <+: large.toList)
    (hnodup : large.toList.Nodup) {a b : Nat} {text : Bytes} (ha : small[a]? = some text)
    (hb : large[b]? = some text) : a = b := by
  have ha' := extends_of_prefix h a text ha
  rw [← Array.getElem?_toList] at ha' hb
  obtain ⟨hlt, _⟩ := List.getElem?_eq_some_iff.mp ha'
  exact (List.getElem?_inj hlt hnodup).mp (ha'.trans hb.symm)

namespace AsmUnit

/-- Assemble units one after another with one pool: the pool in the end, and what
came of each unit. -/
def assembleAll (pool : Interner) :
    List AsmUnit → Interner × List (Except Assemble.Error Module)
  | [] => (pool, [])
  | unit :: units =>
    let rest := assembleAll (unit.assembleWith pool).1 units
    (rest.1, (unit.assembleWith pool).2 :: rest.2)

variable {pool : Interner} {unit : AsmUnit} {units : List AsmUnit} {m : Module}

theorem prefix_assembleWith (pool : Interner) (unit : AsmUnit) :
    pool.texts.toList <+: (unit.assembleWith pool).1.texts.toList :=
  assembleWith_keeps (P := fun p => pool.texts.toList <+: p.texts.toList)
    (fun text _ p hp => hp.trans (Interner.prefix_intern p text)) List.prefix_rfl

theorem mem_assembleWith {text : Bytes} (h : text ∈ (unit.assembleWith pool).1.texts) :
    text ∈ pool.texts ∨ text ∈ unit.constants := by
  refine assembleWith_keeps (P := fun p => ∀ t ∈ p.texts, t ∈ pool.texts ∨ t ∈ unit.constants) ?_
    (fun t ht => .inl ht) text h
  intro new hnew p hp t ht
  rcases Interner.mem_intern ht with ht | rfl
  · exact hp t ht
  · exact .inr hnew

theorem prefix_assembleAll (pool : Interner) (units : List AsmUnit) :
    pool.texts.toList <+: (assembleAll pool units).1.texts.toList := by
  induction units generalizing pool with
  | nil => exact List.prefix_rfl
  | cons unit units ih => exact (prefix_assembleWith pool unit).trans (ih _)

theorem mem_assembleAll {text : Bytes} (h : text ∈ (assembleAll pool units).1.texts) :
    text ∈ pool.texts ∨ text ∈ units.flatMap AsmUnit.constants := by
  induction units generalizing pool with
  | nil => exact .inl h
  | cons unit units ih =>
    rw [List.flatMap_cons, List.mem_append]
    rcases ih h with hmem | hmem
    · rcases mem_assembleWith hmem with hmem | hmem
      · exact .inl hmem
      · exact .inr (.inl hmem)
    · exact .inr (.inr hmem)

/-- There are no more texts in the pool than there are different ones in the units. -/
theorem size_assembleAll_le (units : List AsmUnit) :
    (assembleAll .empty units).1.texts.size ≤ (units.flatMap AsmUnit.constants).dedup.length := by
  have hnodup : (assembleAll .empty units).1.texts.toList.Nodup := Interner.nodup _
  have hsub : (assembleAll .empty units).1.texts.toList ⊆
      (units.flatMap AsmUnit.constants).dedup := by
    intro text htext
    rw [List.mem_dedup]
    rcases mem_assembleAll (Array.mem_toList_iff.mp htext) with hmem | hmem
    · exact absurd hmem (Array.not_mem_empty text)
    · exact hmem
  exact (hnodup.subperm hsub).length_le

/-- A module that is returned was assembled with what was then the pool, and its
constants are the first ones of the pool in the end. -/
theorem assembleAll_ok {k : Nat} (h : (assembleAll pool units).2[k]? = some (.ok m)) :
    ∃ unit before, units[k]? = some unit ∧ (unit.assembleWith before).2 = .ok m ∧
      pool.texts.toList <+: before.texts.toList ∧
      m.constants.toList <+: (assembleAll pool units).1.texts.toList := by
  induction units generalizing pool k with
  | nil => cases h
  | cons unit units ih =>
    cases k with
    | zero =>
      have hm : (unit.assembleWith pool).2 = .ok m := Option.some.inj h
      refine ⟨unit, pool, rfl, hm, List.prefix_rfl, ?_⟩
      rw [constants_of_assembleWith hm]
      exact prefix_assembleAll _ units
    | succ k =>
      obtain ⟨later, before, hlater, hm, hbefore, hafter⟩ := ih h
      exact ⟨later, before, hlater, hm, (prefix_assembleWith pool unit).trans hbefore, hafter⟩

/-- The constants of a module are the first ones of every later module. -/
theorem prefix_of_assembleAll {j k : Nat} {m' : Module} (hjk : j ≤ k)
    (h : (assembleAll pool units).2[j]? = some (.ok m))
    (h' : (assembleAll pool units).2[k]? = some (.ok m')) :
    m.constants.toList <+: m'.constants.toList := by
  induction units generalizing pool j k with
  | nil => cases h
  | cons unit units ih =>
    cases j with
    | succ j =>
      cases k with
      | zero => omega
      | succ k => exact ih (Nat.le_of_succ_le_succ hjk) h h'
    | zero =>
      have hm : (unit.assembleWith pool).2 = .ok m := Option.some.inj h
      cases k with
      | zero =>
        obtain rfl : m = m' := Except.ok.inj (Option.some.inj (h.symm.trans h'))
        exact List.prefix_rfl
      | succ k =>
        -- the later module was assembled with a pool that had grown from this one
        have h' : (assembleAll (unit.assembleWith pool).1 units).2[k]? = some (.ok m') := h'
        obtain ⟨later, before, _, hm', hbefore, _⟩ := assembleAll_ok h'
        rw [constants_of_assembleWith hm, constants_of_assembleWith hm']
        exact hbefore.trans (prefix_assembleWith before later)

/-- **A pool can be shared.** Units are assembled one after another with one pool,
and some of them may be refused. A module that comes of it has no text twice, and
its code has the places of the texts that it is to push; its constants are the
first ones of the pool in the end, and with that pool every run of it is as
before. The constants of an earlier module are the first ones of a later module,
and a text has one place in all modules. -/
theorem assembleAll_shares {units : List AsmUnit}
    (hfew : (units.flatMap AsmUnit.constants).dedup.length < 2 ^ 31) :
    (∀ (k : Nat) (unit : AsmUnit) (m : Module), units[k]? = some unit →
      (assembleAll .empty units).2[k]? = some (.ok m) →
      m.constants.toList.Nodup ∧
      List.Forall₂ (SameTexts m.constants) unit.routines m.routines ∧
      m.constants.toList <+: (assembleAll .empty units).1.texts.toList ∧
      ∀ f ∈ m.routines, ∀ limits n status,
        Machine.advance { m with constants := (assembleAll .empty units).1.texts } f limits n status
          = Machine.advance m f limits n status) ∧
    ∀ (j k : Nat) (m m' : Module), (assembleAll .empty units).2[j]? = some (.ok m) →
      (assembleAll .empty units).2[k]? = some (.ok m') →
      (j ≤ k → m.constants.toList <+: m'.constants.toList) ∧
      ∀ (a b : Nat) (text : Bytes), m.constants[a]? = some text → m'.constants[b]? = some text →
        a = b := by
  have hall : (assembleAll .empty units).1.texts.toList.Nodup := Interner.nodup _
  have hsize := size_assembleAll_le units
  have hnodup : ∀ {k : Nat} {m : Module}, (assembleAll .empty units).2[k]? = some (.ok m) →
      m.constants.toList.Nodup := by
    intro k m h
    obtain ⟨_, _, _, _, _, hafter⟩ := assembleAll_ok h
    exact hall.sublist hafter.sublist
  constructor
  · intro k unit m hunit h
    obtain ⟨unit', before, hunit', hm, _, hafter⟩ := assembleAll_ok h
    obtain rfl : unit = unit' := Option.some.inj (hunit.symm.trans hunit')
    have hle : m.constants.size ≤ (assembleAll .empty units).1.texts.size := hafter.length_le
    have htexts : List.Forall₂ (SameTexts m.constants) unit.routines m.routines :=
      (assembleWith_spec hm).2.2.1.imp fun _ _ hasm => hasm.sameTexts (by omega)
    refine ⟨hnodup h, htexts, hafter, ?_⟩
    intro f hf limits n status
    obtain ⟨r, _, hr⟩ := exists_left_of_mem htexts hf
    exact Machine.advance_withConstants hr.finds (Pool.extends_of_prefix hafter) n status
  · intro j k m m' h h'
    refine ⟨fun hjk => prefix_of_assembleAll hjk h h', ?_⟩
    intro a b text ha hb
    rcases Nat.le_total j k with hjk | hkj
    · exact Pool.place_unique (prefix_of_assembleAll hjk h h') (hnodup h') ha hb
    · exact (Pool.place_unique (prefix_of_assembleAll hkj h' h) (hnodup h) hb ha).symm

/-- Three units: one that prints a text, one that is refused after it has added a
text, and one that goes on with a new text and the first one. -/
def sharing : List AsmUnit :=
  [{ name := ascii "one"
     routines :=
      [{ name := entryName, locals := 0
         code := [.openOutput, .pushText (ascii "a"), .print .ref, .ret] }] },
    { name := ascii "two"
      routines :=
       [{ name := entryName, locals := 0
          code := [.pushText (ascii "b"), .jump (ascii "nowhere")] }] },
    { name := ascii "three"
      routines :=
       [{ name := entryName, locals := 1
          code :=
           [.pushText (ascii "c"), .store .ref 0, .label (ascii "again"), .pushText (ascii "a"),
             .store .ref 0, .ret] }] }]

/-- What comes of the first of them. -/
def sharingFirst : Module where
  name := ascii "one"
  constants := #[ascii "a"]
  routines :=
    [{ name := entryName, maxStack := 2, maxLocals := 0
       code :=
        #[{ op := Opcode.openOutput.byte },
          { op := Opcode.pushText.byte, kind := .ref, operand := 0 },
          { op := Opcode.print.byte, kind := .ref }, { op := Opcode.ret.byte }] }]

/-- What comes of the last of them. -/
def sharingLast : Module where
  name := ascii "three"
  constants := #[ascii "a", ascii "b", ascii "c"]
  routines :=
    [{ name := entryName, maxStack := 1, maxLocals := 1
       code :=
        #[{ op := Opcode.pushText.byte, kind := .ref, operand := 2 },
          { op := Opcode.store.byte, kind := .ref, operand := 0 },
          { op := Opcode.pushText.byte, kind := .ref, operand := 0 },
          { op := Opcode.store.byte, kind := .ref, operand := 0 }, { op := Opcode.ret.byte }] }]

theorem assembleAll_shares_three :
    (sharing.flatMap AsmUnit.constants).dedup.length < 2 ^ 31 ∧
    (assembleAll .empty sharing).2
      = [.ok sharingFirst,
          .error { unit := ascii "two", cause := .undefinedLabel entryName (ascii "nowhere") },
          .ok sharingLast] ∧
    sharingFirst.constants.toList <+: sharingLast.constants.toList ∧
    (∀ unit, sharing[2]? = some unit →
      List.Forall₂ (SameTexts sharingLast.constants) unit.routines sharingLast.routines) ∧
    ∀ f ∈ sharingFirst.routines, ∀ limits n status,
      Machine.advance { sharingFirst with constants := sharingLast.constants } f limits n status
        = Machine.advance sharingFirst f limits n status := by
  have hfew : (sharing.flatMap AsmUnit.constants).dedup.length < 2 ^ 31 := by decide
  have hpool : (assembleAll .empty sharing).1.texts = sharingLast.constants := by decide +kernel
  have hall : (assembleAll .empty sharing).2 = [.ok sharingFirst,
      .error { unit := ascii "two", cause := .undefinedLabel entryName (ascii "nowhere") },
      .ok sharingLast] := by
    decide +kernel
  obtain ⟨hone, hboth⟩ := assembleAll_shares hfew
  rw [hall] at hone hboth
  rw [hpool] at hone
  refine ⟨hfew, hall, (hboth 0 2 _ _ rfl rfl).1 (by omega), ?_, ?_⟩
  · intro unit hunit
    exact (hone 2 unit sharingLast hunit rfl).2.1
  · exact (hone 0 _ sharingFirst rfl rfl).2.2.2

end AsmUnit

end Stackling
