import Mathlib.Algebra.Group.Int.Defs
import Mathlib.Tactic.Common
import Stackling.Proofs.Assemble
import Stackling.Proofs.Machine.Kind
import Stackling.Proofs.StackDepth

/-!
# Sound frames run safely

The depths that are recorded when a frame is built are compared with the stack
of a running machine. `Frame.Sound` lists what a frame must meet, `State.Fits`
what then holds of every state of a run:

* **step** — one instruction leads from a state that fits to one that fits, or
  ends the run for a reason that is not the frame's (`execute_safe`);
* **run** — so does any number of turns (`advance_safe`);
* **assembly** — the frames of an assembled unit are sound, provided that no
  instruction is without meaning and no slot is negative (`Assembled.sound`).
-/

namespace Stackling

open StackDepth Assemble

/-! ## Sound frames -/

/-- What a machine relies on when it executes a frame with the given recorded
depths. -/
structure Frame.Sound (m : Module) (f : Frame) (depths : Array (Option Nat)) : Prop where
  consistent : Consistent f.code (recorded depths) f.maxStack.toNat
  maxStack_nonneg : 0 ≤ f.maxStack
  known : ∀ (pc : Nat) (c : Code), f.code[pc]? = some c → ∃ op, c.opcode? = some op ∧ op ≠ .label
  slot : ∀ (pc : Nat) (c : Code), f.code[pc]? = some c →
    c.opcode? = some .load ∨ c.opcode? = some .store →
    0 ≤ c.operand.toInt ∧ c.operand.toInt < f.maxLocals
  constant : ∀ (pc : Nat) (c : Code), f.code[pc]? = some c → c.opcode? = some .pushText →
    ∃ index < m.constants.size, c.operand.toInt = index

/-- A state that a run of a sound frame may be in: the stack has the depth that
was recorded for the next address. -/
structure State.Fits (f : Frame) (depths : Array (Option Nat)) (s : State) : Prop where
  depth : recorded depths s.pc = some s.stack.size
  slots : (s.slots.size : Int) = f.maxLocals

/-- A step that leads on to a state with the given property, or ends the run for
a reason that is not structural. -/
def Step.Safe (post : State → Prop) : Step → Prop
  | .next s => post s
  | .done _ => True
  | .fault f _ => f.kind.isStructural = false
  | .crash => False

/-! ## One instruction -/

section Step

variable {m : Module} {f : Frame} {depths : Array (Option Nat)} {s : State}

theorem State.pop_of_pos (h : 0 < s.stack.size) :
    ∃ v, s.pop = (some v, { s with stack := s.stack.pop }) := by
  have hlt : s.stack.size - 1 < s.stack.size := by omega
  refine ⟨s.stack[s.stack.size - 1], ?_⟩
  simp [State.pop, Array.back?_eq_getElem?, Array.getElem?_eq_getElem hlt]

theorem State.push_safe {v : Value} (hroom : s.stack.size + 1 ≤ f.maxStack.toNat)
    (hnext : recorded depths (s.pc + 1) = some (s.stack.size + 1))
    (hslots : (s.slots.size : Int) = f.maxLocals) :
    (s.push f v).Safe (State.Fits f depths) := by
  have hlt : (s.stack.size : Int) < f.maxStack := by omega
  rw [State.push, if_pos hlt]
  exact ⟨by simpa using hnext, hslots⟩

theorem State.withInts_safe {k : State → Int32 → Int32 → Step} (hsize : 2 ≤ s.stack.size)
    (hk : ∀ a b, (k { s with stack := s.stack.pop.pop } a b).Safe (State.Fits f depths)) :
    (s.withInts k).Safe (State.Fits f depths) := by
  obtain ⟨right, hright⟩ := s.pop_of_pos (by omega)
  obtain ⟨left, hleft⟩ := State.pop_of_pos (s := { s with stack := s.stack.pop })
    (by simp; omega)
  simp only [State.withInts, hright, hleft]
  split
  · exact hk _ _
  · rfl

theorem State.slotIndex?_of_lt {slot : Int32} (hnonneg : 0 ≤ slot.toInt)
    (hlt : slot.toInt < s.slots.size) :
    s.slotIndex? slot = some slot.toInt.toNat ∧ slot.toInt.toNat < s.slots.size := by
  obtain ⟨index, hindex⟩ := Int.eq_ofNat_of_zero_le hnonneg
  have hbound : index < s.slots.size := by omega
  have hcast : slot.toInt = Int.ofNat index := hindex
  simp [State.slotIndex?, hcast, hbound]

theorem State.goTo_safe {address : Int32} {next : Nat} (haddress : address.toInt = next)
    (hnext : recorded depths next = some s.stack.size)
    (hslots : (s.slots.size : Int) = f.maxLocals) :
    (s.goTo address).Safe (State.Fits f depths) := by
  have hcast : address.toInt = Int.ofNat next := haddress
  simp only [State.goTo, hcast]
  exact ⟨hnext, hslots⟩

/-- Reading pops the handle and pushes what was read, so the depth stays. -/
theorem State.read_safe {α : Type} {scan : Input → Input × Except Scan.Fault α}
    {value : α → Value} (hsize : 1 ≤ s.stack.size) (hroom : s.stack.size ≤ f.maxStack.toNat)
    (hnext : recorded depths (s.pc + 1) = some s.stack.size)
    (hslots : (s.slots.size : Int) = f.maxLocals) :
    (s.read f scan value).Safe (State.Fits f depths) := by
  obtain ⟨v, hv⟩ := s.pop_of_pos (by omega)
  have hpop : s.stack.pop.size + 1 = s.stack.size := by simp; omega
  simp only [State.read, hv]
  cases v with
  | input =>
    dsimp only
    split
    · rfl
    · refine State.push_safe ?_ ?_ hslots
      · simp only [hpop]; exact hroom
      · simp only [hpop]; exact hnext
  | _ => rfl

/-- One instruction of a sound frame, executed in a state that fits. -/
theorem State.execute_safe {c : Code} (hf : f.Sound m depths) (hs : s.Fits f depths)
    (hc : f.code[s.pc]? = some c) : (s.execute m f c).Safe (State.Fits f depths) := by
  -- what was recorded for this address is what the stack has now
  obtain ⟨c', hc', enough, hdeep, hnext⟩ := hf.consistent.agrees s.pc s.stack.size hs.depth
  obtain rfl : c = c' := Option.some.inj (hc.symm.trans hc')
  obtain ⟨op, hop, hlabel⟩ := hf.known s.pc c hc
  have hop' : Opcode.ofByte? c.op = some op := hop
  simp only [after, Opcode.popsOf, Opcode.pushesOf, hop', Option.elim_some] at enough hdeep hnext
  simp only [successors, hop] at hnext
  -- the depth at the next address, for the instructions that simply go on
  have hgo : ((s.pc : Int) + 1 ∈ successors c s.pc) →
      recorded depths (s.pc + 1) = some (s.stack.size - op.pops + op.pushes) := by
    intro hmem
    simp only [successors, hop] at hmem
    obtain ⟨next, heq, hdepth⟩ := hnext _ hmem
    obtain rfl : next = s.pc + 1 := by omega
    exact hdepth
  simp only [successors, hop] at hgo
  simp only [State.execute, hop]
  cases op with
  | pushInt => exact State.push_safe hdeep (hgo (by simp)) hs.slots
  | pushText =>
    obtain ⟨index, hindex, hoperand⟩ := hf.constant s.pc c hc hop
    have hcast : c.operand.toInt = Int.ofNat index := hoperand
    simp only [State.pushConstant, hcast, Array.getElem?_eq_getElem hindex]
    exact State.push_safe hdeep (hgo (by simp)) hs.slots
  | load =>
    obtain ⟨hnonneg, hlt⟩ := hf.slot s.pc c hc (.inl hop)
    obtain ⟨hslot, _⟩ := s.slotIndex?_of_lt hnonneg (by rw [hs.slots]; exact hlt)
    simp only [State.load, hslot]
    split
    · rfl
    · exact State.push_safe hdeep (hgo (by simp)) hs.slots
  | store =>
    obtain ⟨hnonneg, hlt⟩ := hf.slot s.pc c hc (.inr hop)
    obtain ⟨hslot, _⟩ := s.slotIndex?_of_lt hnonneg (by rw [hs.slots]; exact hlt)
    obtain ⟨v, hv⟩ := s.pop_of_pos enough
    simp only [State.store, hslot, hv]
    exact ⟨by simpa [Opcode.pops, Opcode.pushes] using hgo (by simp), by simpa using hs.slots⟩
  | add | sub | mul | div =>
    refine State.withInts_safe enough fun a b => ?_
    simp only [Opcode.pops, Opcode.pushes] at enough hdeep hgo
    have hpop : s.stack.pop.pop.size + 1 = s.stack.size - 2 + 1 := by simp; omega
    split
    · rfl
    · refine State.push_safe ?_ ?_ hs.slots
      · simp only [hpop]; exact hdeep
      · simp only [hpop]; exact hgo (by simp)
  | branch =>
    refine State.withInts_safe enough fun a b => ?_
    simp only [Opcode.pops, Opcode.pushes, Nat.add_zero] at enough hdeep hgo hnext
    have hpop : s.stack.pop.pop.size = s.stack.size - 2 := by simp; omega
    split
    · obtain ⟨next, heq, hdepth⟩ := hnext c.operand.toInt (by simp)
      exact State.goTo_safe heq (by simp only [hpop]; exact hdepth) hs.slots
    · exact ⟨by simp only [hpop]; exact hgo (by simp), hs.slots⟩
  | jump =>
    obtain ⟨next, heq, hdepth⟩ := hnext c.operand.toInt (by simp)
    exact State.goTo_safe heq hdepth hs.slots
  | label => exact absurd rfl hlabel
  | openOutput => exact State.push_safe hdeep (hgo (by simp)) hs.slots
  | openInput => exact State.push_safe hdeep (hgo (by simp)) hs.slots
  | print =>
    simp only [Opcode.pops, Opcode.pushes, Nat.add_zero] at enough hgo
    obtain ⟨v, hv⟩ := s.pop_of_pos (by omega)
    obtain ⟨handle, hhandle⟩ := State.pop_of_pos (s := { s with stack := s.stack.pop })
      (by simp; omega)
    have hpop : s.stack.pop.pop.size = s.stack.size - 2 := by simp; omega
    simp only [State.print, hv, hhandle]
    cases handle with
    | output =>
      dsimp only
      split
      · exact ⟨by simp only [hpop]; exact hgo (by simp), hs.slots⟩
      · rfl
    | _ => rfl
  | readInt | readLine =>
    simp only [Opcode.pops, Opcode.pushes] at enough hdeep hgo
    have hsame : s.stack.size - 1 + 1 = s.stack.size := by omega
    rw [hsame] at hdeep hgo
    exact State.read_safe enough hdeep (hgo (by simp)) hs.slots
  | ret => trivial

end Step

/-! ## Runs -/

/-- A status of a run that has not been ended by its module. -/
def Status.Safe (f : Frame) (depths : Array (Option Nat)) : Status → Prop
  | .running s => s.Fits f depths
  | .stopped outcome _ => ∀ kind, outcome.kind? = some kind → kind.isStructural = false

theorem Machine.turn_safe {m : Module} {f : Frame} {depths : Array (Option Nat)}
    (hf : f.Sound m depths) (limits : Limits) {s : State} (hs : s.Fits f depths) :
    (Machine.turn m f limits s).Safe f depths := by
  obtain ⟨c, hc, _⟩ := hf.consistent.agrees s.pc s.stack.size hs.depth
  have hcounted : State.Fits f depths { s with steps := s.steps + 1 } := ⟨hs.depth, hs.slots⟩
  have hstep := State.execute_safe hf hcounted hc
  simp only [Machine.turn, hc]
  split
  · intro kind hkind
    cases hkind
    rfl
  split
  · intro kind hkind
    cases hkind
    rfl
  · revert hstep
    cases State.execute m f c { s with steps := s.steps + 1 } with
    | next t => exact fun h => h
    | done t => exact fun _ kind hkind => by cases hkind
    | fault fault t =>
      intro h kind hkind
      cases hkind
      exact h
    | crash => exact False.elim

/-- However long a run of a sound frame is, its module does not end it. -/
theorem Machine.advance_safe {m : Module} {f : Frame} {depths : Array (Option Nat)}
    (hf : f.Sound m depths) (limits : Limits) (n : Nat) {status : Status}
    (hs : status.Safe f depths) : (Machine.advance m f limits n status).Safe f depths := by
  induction n generalizing status with
  | zero => exact hs
  | succ n ih =>
    cases status with
    | running s => exact ih (Machine.turn_safe hf limits hs)
    | stopped outcome s => exact hs

/-! ## Assembled frames -/

/-- An instruction that has a meaning and addresses no negative slot. -/
def Instruction.isSound : Instruction → Bool
  | .load _ slot | .store _ slot => 0 ≤ slot.toInt
  | .undefined _ _ => false
  | _ => true

/-- Whether what qualifies an instruction has a meaning. -/
def Instruction.isQualified : Instruction → Bool
  | .load kind _ | .store kind _ | .print kind => kind.isKnown
  | .branch relation _ => relation.isKnown
  | _ => true

/-- An instruction of which every part has a meaning. -/
def Instruction.isMeaningful (i : Instruction) : Bool := i.isSound && i.isQualified

theorem Instruction.isMeaningful_iff {i : Instruction} :
    i.isMeaningful = true ↔ i.isSound = true ∧ i.isQualified = true :=
  Bool.and_eq_true_iff

private theorem le_foldl_max (ss : List Int32) (base : Int) :
    base ≤ ss.foldl (fun n slot => max n (slot.toInt + 1)) base ∧
      ∀ slot ∈ ss, slot.toInt + 1 ≤ ss.foldl (fun n slot => max n (slot.toInt + 1)) base := by
  induction ss generalizing base with
  | nil => simp
  | cons first ss ih =>
    obtain ⟨hbase, hall⟩ := ih (max base (first.toInt + 1))
    simp only [List.foldl_cons]
    refine ⟨by omega, fun slot hslot => ?_⟩
    rcases List.mem_cons.mp hslot with rfl | hslot
    · omega
    · exact hall slot hslot

/-- A routine gets room for the slots it asks for and for those it addresses. -/
theorem Assemble.locals_le_slots (r : Routine) : r.locals ≤ slots r :=
  (le_foldl_max _ _).1

theorem Assemble.slot_lt_slots {r : Routine} {i : Instruction} {slot : Int32} (hi : i ∈ r.code)
    (hslot : i.slot? = some slot) : slot.toInt < slots r :=
  (le_foldl_max _ _).2 slot (List.mem_filterMap.mpr ⟨i, hi, hslot⟩)

private theorem foldl_max_le {ss : List Int32} {bound : Int} (h : ∀ slot ∈ ss, slot.toInt < bound)
    (base : Int) : ss.foldl (fun n slot => max n (slot.toInt + 1)) base ≤ max base bound := by
  induction ss generalizing base with
  | nil => exact Int.le_max_left _ _
  | cons first ss ih =>
    rw [List.forall_mem_cons] at h
    have hrest := ih h.2 (max base (first.toInt + 1))
    simp only [List.foldl_cons]
    omega

/-- Addressing slots never takes more room than machine integers can number. -/
theorem Assemble.slots_le (r : Routine) : slots r ≤ max r.locals (2 ^ 31) :=
  foldl_max_le (fun slot _ => slot.toInt_lt) _

/-- A routine that addresses only slots that it asks for gets room for no more. -/
theorem Assemble.slots_eq_locals {r : Routine}
    (h : ∀ i ∈ r.code, ∀ slot, i.slot? = some slot → slot.toInt < r.locals) :
    slots r = r.locals := by
  have hle : slots r ≤ max r.locals r.locals := foldl_max_le (fun slot hslot => by
    obtain ⟨i, hi, heq⟩ := List.mem_filterMap.mp hslot
    exact h i hi slot heq) _
  have hge := locals_le_slots r
  omega

section Assembled

variable {m : Module} {r : Routine} {f : Frame}

theorem Assemble.Assembled.exists_instruction (h : Assembled m.constants r f) {pc : Nat} {c : Code}
    (hc : f.code[pc]? = some c) : ∃ i ∈ r.code, Resolves (address? r.code) m.constants i c := by
  have hlt := (Array.getElem?_eq_some_iff.mp hc).1
  rw [h.size_code] at hlt
  obtain ⟨first, i, rest, hcode, hi, rfl⟩ := split_of_lt_span hlt
  obtain ⟨c', hc', hresolves⟩ := h.code_of_split hcode hi
  obtain rfl : c = c' := Option.some.inj (hc.symm.trans hc')
  exact ⟨i, by simp [hcode], hresolves⟩

/-- Sound code gives a sound frame. -/
theorem Assemble.Assembled.sound (h : Assembled m.constants r f)
    (hsound : ∀ i ∈ r.code, i.isSound = true) (hconstants : m.constants.size ≤ 2 ^ 31) :
    ∃ depths, explore f.code = .ok (depths, f.maxStack.toNat) ∧ f.Sound m depths := by
  obtain ⟨n, hn, hmax⟩ := h.depth
  obtain ⟨depths, hexplore⟩ := compute_eq_ok_iff.mp hn
  have hmax' : f.maxStack.toNat = n := by omega
  refine ⟨depths, hmax' ▸ hexplore, ?_⟩
  refine
    { consistent := hmax' ▸ (explore_ok hexplore).1
      maxStack_nonneg := by omega
      known := ?_
      slot := ?_
      constant := ?_ }
  -- each code comes from an instruction of the routine, and that instruction is sound
  · intro pc c hc
    obtain ⟨i, hi, hresolves⟩ := h.exists_instruction hc
    have hone := hsound i hi
    cases hresolves with
    | undefined => simp [Instruction.isSound] at hone
    | arith op => cases op <;> exact ⟨_, rfl, by simp⟩
    | _ => exact ⟨_, rfl, by simp⟩
  · intro pc c hc hop
    obtain ⟨i, hi, hresolves⟩ := h.exists_instruction hc
    have hone := hsound i hi
    rw [h.maxLocals]
    cases hresolves with
    | load kind slot =>
      exact ⟨by simpa [Instruction.isSound] using hone, slot_lt_slots hi rfl⟩
    | store kind slot =>
      exact ⟨by simpa [Instruction.isSound] using hone, slot_lt_slots hi rfl⟩
    | arith op => cases op <;> simp [Code.opcode?, Arith.opcode] at hop
    | undefined => simp [Instruction.isSound] at hone
    | _ => simp [Code.opcode?] at hop
  · intro pc c hc hop
    obtain ⟨i, hi, hresolves⟩ := h.exists_instruction hc
    have hone := hsound i hi
    cases hresolves with
    | pushText place =>
      have hlt := (Array.getElem?_eq_some_iff.mp place).1
      exact ⟨_, hlt, Int32.toInt_ofNat_of_lt (by omega)⟩
    | arith op => cases op <;> simp [Code.opcode?, Arith.opcode] at hop
    | undefined => simp [Instruction.isSound] at hone
    | _ => simp [Code.opcode?] at hop

/-- The operands of an assembled frame always have room, so only its slots decide
whether a run can start. -/
theorem Assemble.Assembled.begin_eq (h : Assembled m.constants r f) (hentry : m.entry? = some f)
    (hspan : span r.code < 2 ^ 31) (last : State) :
    Machine.begin m last =
      if Machine.hasRoom f.maxLocals then
        .ok (f, { slots := Array.replicate f.maxLocals.toNat .null, input := last.input,
                  output := last.output })
      else .error .crashed := by
  obtain ⟨n, hn, hmax⟩ := h.depth
  obtain ⟨depths, hexplore⟩ := compute_eq_ok_iff.mp hn
  obtain ⟨hconsistent, _, hattained⟩ := explore_ok hexplore
  have hsize := hattained.le_size hconsistent
  rw [h.size_code] at hsize
  have hstack : Machine.hasRoom f.maxStack = true := by
    rw [hmax]
    unfold Machine.hasRoom Machine.room
    simp only [Bool.and_eq_true, decide_eq_true_eq]
    omega
  simp only [Machine.begin, hentry, Machine.start?, hstack, true_and]
  by_cases hslots : Machine.hasRoom f.maxLocals = true
  · rw [if_pos hslots, if_pos hslots]
  · rw [if_neg hslots, if_neg hslots]

end Assembled

end Stackling
