import Mathlib.Tactic.Common
import Stackling.Proofs.Machine.Kind

/-!
# Runs of any code

What holds of a run whatever its module is, with no check made before:

* **step** — one instruction counts no steps itself, keeps the number of slots,
  never pushes beyond the stack that the frame asks for, and only adds to the
  output; and each way for it to end has its reason in the instruction
  (`State.execute_lawful`);
* **turn** — a turn executes one instruction or stops before it
  (`Machine.turned`), so it counts one step or none;
* **run** — what every turn keeps is kept by any number of them
  (`Machine.advance_induction`), and a run that has stopped did so in one of its
  turns (`Machine.exists_turn_of_stopped`).
-/

namespace Stackling

/-! ## One instruction -/

/-- What an instruction of a frame may have made of a state. -/
structure State.Moved (f : Frame) (s t : State) : Prop where
  steps : t.steps = s.steps
  slots : t.slots.size = s.slots.size
  stack : (t.stack.size : Int) ≤ max (s.stack.size : Int) f.maxStack
  output : s.output.bytes <+: t.output.bytes

/-- Whether an instruction may go on elsewhere. -/
def Code.Jumps (c : Code) : Prop := c.opcode? = some .branch ∨ c.opcode? = some .jump

/-- Why an instruction may run into a fault, where its code gives the reason. -/
def Fault.Due (m : Module) (c : Code) (s : State) : Fault → Prop
  | .constant _ => c.opcode? = some .pushText ∧ (m.constants.size : Int) ≤ c.operand.toInt
  | .slotRange _ => (c.opcode? = some .load ∨ c.opcode? = some .store) ∧
      ¬(0 ≤ c.operand.toInt ∧ c.operand.toInt < s.slots.size)
  | .opcode _ => ∀ op, c.opcode? = some op → op = .label
  | _ => True

/-- What may come of an instruction in a state. -/
def Step.Lawful (m : Module) (f : Frame) (c : Code) (s : State) : Step → Prop
  | .next t => s.Moved f t ∧ (t.pc = s.pc + 1 ∨ c.Jumps ∧ c.operand.toInt = t.pc)
  | .done t => s.Moved f t ∧ t.pc = s.pc ∧
      (c.opcode? = some .ret ∨ c.Jumps ∧ c.operand.toInt < 0)
  | .fault reason t => s.Moved f t ∧ t.pc = s.pc ∧ reason.Due m c s
  | .crash => c.opcode? = some .pushText ∧ c.operand.toInt < 0

namespace State

variable {m : Module} {f : Frame} {c : Code} {s t u : State}

theorem Moved.refl (f : Frame) (s : State) : s.Moved f s :=
  ⟨rfl, rfl, by omega, List.prefix_rfl⟩

/-- An operand may be popped at any time. -/
theorem Moved.pop (h : s.Moved f t) : s.Moved f { t with stack := t.stack.pop } := by
  refine ⟨h.steps, h.slots, ?_, h.output⟩
  have hstack := h.stack
  simp only [Array.size_pop]
  omega

theorem Moved.withInput (h : s.Moved f t) (input : Input) : s.Moved f { t with input } :=
  ⟨h.steps, h.slots, h.stack, h.output⟩

theorem slotIndex?_eq_none {slot : Int32} (h : s.slotIndex? slot = none) :
    ¬(0 ≤ slot.toInt ∧ slot.toInt < s.slots.size) := by
  unfold slotIndex? at h
  split at h
  · rename_i index hindex
    split_ifs at h with hlt
    rw [hindex]
    intro hrange
    exact hlt (by simpa using hrange.2)
  · rename_i index hindex
    rw [hindex]
    rintro ⟨hnonneg, _⟩
    exact absurd hnonneg (by simp)

/-! Each operation of a state leads on from what the instruction has done so far. -/

section Operation

variable (h : s.Moved f u) (hpc : u.pc = s.pc)
include h hpc

theorem push_lawful (v : Value) : (u.push f v).Lawful m f c s := by
  unfold push
  split_ifs with hroom
  · refine ⟨⟨h.steps, h.slots, ?_, h.output⟩, .inl (by simp only [hpc])⟩
    simp only [Array.size_push]
    omega
  · exact ⟨h, hpc, trivial⟩

theorem goTo_lawful (hc : c.Jumps) : (u.goTo c.operand).Lawful m f c s := by
  unfold goTo
  split
  · rename_i pc hoperand
    exact ⟨⟨h.steps, h.slots, h.stack, h.output⟩, .inr ⟨hc, hoperand⟩⟩
  · rename_i n hoperand
    refine ⟨h, hpc, .inr ⟨hc, ?_⟩⟩
    rw [hoperand]
    exact Int.negSucc_lt_zero n

theorem withInts_lawful {k : State → Int32 → Int32 → Step}
    (hk : ∀ t a b, s.Moved f t → t.pc = s.pc → (k t a b).Lawful m f c s) :
    (u.withInts k).Lawful m f c s := by
  simp only [withInts, State.pop]
  cases u.stack.back? with
  | none => exact ⟨h.pop, hpc, trivial⟩
  | some right =>
    dsimp only
    cases u.stack.pop.back? with
    | none => exact ⟨h.pop.pop, hpc, trivial⟩
    | some left =>
      dsimp only
      split
      · exact hk _ _ _ h.pop.pop hpc
      · exact ⟨h.pop.pop, hpc, trivial⟩

theorem arith_lawful (op : Arith) : (u.arith f op).Lawful m f c s := by
  apply withInts_lawful h hpc
  intro t a b ht htpc
  cases op.result? a b with
  | none => exact ⟨ht, htpc, trivial⟩
  | some n => exact push_lawful ht htpc _

theorem print_lawful : u.print.Lawful m f c s := by
  simp only [print, State.pop]
  cases u.stack.back? with
  | none => exact ⟨h.pop, hpc, trivial⟩
  | some v =>
    dsimp only
    cases u.stack.pop.back? with
    | none => exact ⟨h.pop.pop, hpc, trivial⟩
    | some handle =>
      cases handle with
      | output =>
        dsimp only
        split
        · refine ⟨⟨h.steps, h.slots, h.pop.pop.stack, ?_⟩, .inl (by simp only [hpc])⟩
          refine h.output.trans ⟨v.render ++ [Bytes.newline], ?_⟩
          simp [Output.append, Output.bytes]
        · exact ⟨h.pop.pop, hpc, trivial⟩
      | _ => exact ⟨h.pop.pop, hpc, trivial⟩

theorem read_lawful {α : Type} (scan : Input → Input × Except Scan.Fault α) (value : α → Value) :
    (u.read f scan value).Lawful m f c s := by
  simp only [read, State.pop]
  cases u.stack.back? with
  | none => exact ⟨h.pop, hpc, trivial⟩
  | some handle =>
    cases handle with
    | input =>
      dsimp only
      split
      · exact ⟨h.pop.withInput _, hpc, trivial⟩
      · exact push_lawful (h.pop.withInput _) hpc _
    | _ => exact ⟨h.pop, hpc, trivial⟩

end Operation

theorem pushConstant_lawful (hop : c.opcode? = some .pushText) :
    (s.pushConstant m f c.operand).Lawful m f c s := by
  unfold pushConstant
  split
  · rename_i n hoperand
    refine ⟨hop, ?_⟩
    rw [hoperand]
    exact Int.negSucc_lt_zero n
  · rename_i index hoperand
    cases htext : m.constants[index]? with
    | none =>
      refine ⟨.refl f s, rfl, hop, ?_⟩
      have hle := Array.getElem?_eq_none_iff.mp htext
      rw [hoperand]
      exact Int.ofNat_le.mpr hle
    | some text => exact push_lawful (.refl f s) rfl _

theorem load_lawful (hop : c.opcode? = some .load) : (s.load f c.operand).Lawful m f c s := by
  unfold load
  cases hslot : s.slotIndex? c.operand with
  | none => exact ⟨.refl f s, rfl, .inl hop, slotIndex?_eq_none hslot⟩
  | some index =>
    dsimp only
    split
    · exact ⟨.refl f s, rfl, trivial⟩
    · exact push_lawful (.refl f s) rfl _

theorem store_lawful (hop : c.opcode? = some .store) : (s.store c.operand).Lawful m f c s := by
  have hpop := (Moved.refl f s).pop
  simp only [store, State.pop]
  cases hslot : s.slotIndex? c.operand with
  | none => exact ⟨.refl f s, rfl, .inr hop, slotIndex?_eq_none hslot⟩
  | some index =>
    cases s.stack.back? with
    | none => exact ⟨hpop, rfl, trivial⟩
    | some v => exact ⟨⟨hpop.steps, by simp, hpop.stack, hpop.output⟩, .inl rfl⟩

/-- One instruction, executed in any state. -/
theorem execute_lawful (m : Module) (f : Frame) (c : Code) (s : State) :
    (s.execute m f c).Lawful m f c s := by
  have hs := Moved.refl f s
  unfold execute
  cases hop : c.opcode? with
  | none => exact ⟨hs, rfl, fun op h => by rw [hop] at h; cases h⟩
  | some op =>
    cases op with
    | pushInt | openOutput | openInput => exact push_lawful hs rfl _
    | pushText => exact pushConstant_lawful hop
    | load => exact load_lawful hop
    | store => exact store_lawful hop
    | add | sub | mul | div => exact arith_lawful hs rfl _
    | branch =>
      refine withInts_lawful hs rfl fun t a b ht htpc => ?_
      split
      · exact goTo_lawful ht htpc (.inl hop)
      · exact ⟨⟨ht.steps, ht.slots, ht.stack, ht.output⟩, .inl (by simp only [htpc])⟩
    | jump => exact goTo_lawful hs rfl (.inr hop)
    | print => exact print_lawful hs rfl
    | readInt | readLine => exact read_lawful hs rfl _ _
    | ret => exact ⟨hs, rfl, .inl hop⟩
    | label => exact ⟨hs, rfl, fun op h => by rw [hop] at h; exact (Option.some.inj h).symm⟩

end State

/-! ## Turns -/

/-- The state that a run has come to. -/
def Status.state : Status → State
  | .running s | .stopped _ s => s

@[simp] theorem Status.state_running (s : State) : (Status.running s).state = s := rfl

@[simp] theorem Status.state_stopped (outcome : Outcome) (s : State) :
    (Status.stopped outcome s).state = s := rfl

/-- The state in which the next instruction is executed: it has been counted. -/
def State.counted (s : State) : State := { s with steps := s.steps + 1 }

@[simp] theorem State.counted_steps (s : State) : s.counted.steps = s.steps + 1 := rfl

/-- Whether the step budget keeps a state from going on. -/
def Limits.Spent (limits : Limits) (s : State) : Prop :=
  0 < limits.maxSteps ∧ limits.maxSteps ≤ s.steps

namespace Machine

variable {m : Module} {f : Frame} {limits : Limits} {s : State} {status : Status}

/-- What comes of a turn: the run stops before the next instruction, or goes as
far as that instruction leads. -/
inductive Turned (m : Module) (f : Frame) (limits : Limits) (s : State) : Status → Prop
  | leftCode (hcode : f.code[s.pc]? = none) : Turned m f limits s (.stopped (.leftCode f.name) s)
  | stepLimit (hspent : limits.Spent s) :
      Turned m f limits s (.stopped (.stepLimit s.steps) s)
  | canceled (hcanceled : limits.canceled = true) : Turned m f limits s (.stopped .canceled s)
  | next {c : Code} {t : State} (hcode : f.code[s.pc]? = some c) (hbudget : ¬limits.Spent s)
      (h : (Step.next t).Lawful m f c s.counted) : Turned m f limits s (.running t)
  | done {c : Code} {t : State} (hcode : f.code[s.pc]? = some c)
      (h : (Step.done t).Lawful m f c s.counted) : Turned m f limits s (.stopped .returned t)
  | fault {c : Code} {t : State} {reason : Fault} (hcode : f.code[s.pc]? = some c)
      (h : (Step.fault reason t).Lawful m f c s.counted) :
      Turned m f limits s (.stopped (.fault m.name f.name s.pc c.op reason) t)
  | crash {c : Code} (hcode : f.code[s.pc]? = some c) (h : Step.crash.Lawful m f c s.counted) :
      Turned m f limits s (.stopped .crashed s.counted)

theorem turned (m : Module) (f : Frame) (limits : Limits) (s : State) :
    Turned m f limits s (turn m f limits s) := by
  unfold turn
  cases hcode : f.code[s.pc]? with
  | none => exact .leftCode hcode
  | some c =>
    dsimp only
    split_ifs with hspent hcanceled
    · exact .stepLimit hspent
    · exact .canceled hcanceled.1
    · have hstep := s.counted.execute_lawful m f c
      unfold State.counted at hstep
      revert hstep
      cases State.execute m f c { s with steps := s.steps + 1 } with
      | next t => exact .next hcode hspent
      | done t => exact .done hcode
      | fault reason t => exact .fault hcode
      | crash => exact .crash hcode

theorem turn_of_spent {c : Code} (hcode : f.code[s.pc]? = some c) (hspent : limits.Spent s) :
    turn m f limits s = .stopped (.stepLimit s.steps) s := by
  simp only [turn, hcode]
  exact if_pos hspent

/-- A turn takes one step, or none if the run stops before the next instruction. -/
theorem Turned.steps (h : Turned m f limits s status) :
    s.steps ≤ status.state.steps ∧ status.state.steps ≤ s.steps + 1 := by
  cases h with
  | leftCode | stepLimit | canceled => exact ⟨Nat.le_refl _, Nat.le_succ _⟩
  | next _ _ h | done _ h | fault _ h =>
    rw [Status.state, h.1.steps]
    exact ⟨Nat.le_succ _, Nat.le_refl _⟩
  | crash => exact ⟨Nat.le_succ _, Nat.le_refl _⟩

theorem Turned.steps_of_running {t : State} (h : Turned m f limits s (.running t)) :
    t.steps = s.steps + 1 := by
  cases h with
  | next _ _ h => exact h.1.steps

/-- What was printed stays. -/
theorem Turned.output (h : Turned m f limits s status) :
    s.output.bytes <+: status.state.output.bytes := by
  cases h with
  | leftCode | stepLimit | canceled | crash => exact List.prefix_rfl
  | next _ _ h | done _ h | fault _ h => exact h.1.output

/-- A turn leaves no more operands than the frame asks for. -/
theorem Turned.stack_le (h : Turned m f limits s status)
    (hs : (s.stack.size : Int) ≤ f.maxStack) : (status.state.stack.size : Int) ≤ f.maxStack := by
  cases h with
  | leftCode | stepLimit | canceled | crash => exact hs
  | next _ _ h | done _ h | fault _ h =>
    exact Int.le_trans h.1.stack (Int.max_le.mpr ⟨hs, Int.le_refl _⟩)

/-! ## Runs -/

@[simp] theorem advance_zero (m : Module) (f : Frame) (limits : Limits) (status : Status) :
    advance m f limits 0 status = status := by
  cases status <;> rfl

@[simp] theorem advance_succ (m : Module) (f : Frame) (limits : Limits) (n : Nat) (s : State) :
    advance m f limits (n + 1) (.running s) = advance m f limits n (turn m f limits s) := rfl

@[simp] theorem advance_stopped (m : Module) (f : Frame) (limits : Limits) (n : Nat)
    (outcome : Outcome) (s : State) :
    advance m f limits n (.stopped outcome s) = .stopped outcome s := by
  cases n <;> rfl

theorem advance_add (m : Module) (f : Frame) (limits : Limits) (n k : Nat) (status : Status) :
    advance m f limits (n + k) status = advance m f limits k (advance m f limits n status) := by
  induction n generalizing status with
  | zero => rw [Nat.zero_add, advance_zero]
  | succ n ih =>
    cases status with
    | running s => rw [Nat.succ_add, advance_succ, advance_succ, ih]
    | stopped outcome s => simp only [advance_stopped]

/-- One turn more. -/
theorem advance_of_running {n : Nat} {t : State}
    (h : advance m f limits n status = .running t) :
    advance m f limits (n + 1) status = turn m f limits t := by
  rw [advance_add, h, advance_succ, advance_zero]

/-- What every turn keeps holds at the end if it holds at the start. -/
theorem advance_induction {P : Status → Prop} (hturn : ∀ s, P (.running s) → P (turn m f limits s))
    (n : Nat) (h : P status) : P (advance m f limits n status) := by
  induction n generalizing status with
  | zero => rwa [advance_zero]
  | succ n ih =>
    cases status with
    | running s => exact ih (hturn s h)
    | stopped outcome s => rwa [advance_stopped]

/-- A run that has stopped did so in one of its turns. -/
theorem exists_turn_of_stopped {n : Nat} {outcome : Outcome} {t : State}
    (h : advance m f limits n (.running s) = .stopped outcome t) :
    ∃ k u, k < n ∧ advance m f limits k (.running s) = .running u ∧
      turn m f limits u = .stopped outcome t := by
  induction n generalizing s with
  | zero => cases h
  | succ n ih =>
    rw [advance_succ] at h
    cases hturn : turn m f limits s with
    | stopped outcome' t' =>
      rw [hturn, advance_stopped] at h
      exact ⟨0, s, Nat.succ_pos n, rfl, hturn.trans h⟩
    | running s' =>
      rw [hturn] at h
      obtain ⟨k, u, hk, hrun, hlast⟩ := ih h
      exact ⟨k + 1, u, Nat.succ_lt_succ hk, by rw [advance_succ, hturn, hrun], hlast⟩

/-- A run stops in one way only. -/
theorem stopped_unique {n k : Nat} {outcome outcome' : Outcome} {t t' : State}
    (h : advance m f limits n status = .stopped outcome t)
    (h' : advance m f limits k status = .stopped outcome' t') : outcome = outcome' ∧ t = t' := by
  have hboth := advance_add m f limits n k status
  rw [h, advance_stopped, Nat.add_comm, advance_add, h', advance_stopped] at hboth
  cases hboth
  exact ⟨rfl, rfl⟩

/-- Runs start in the entry routine, with empty slots and no operands, and only if
there is room for both. -/
theorem begin_eq_ok_iff {last : State} : begin m last = .ok (f, s) ↔
    m.entry? = some f ∧ (hasRoom f.maxStack = true ∧ hasRoom f.maxLocals = true) ∧
      s = { slots := Array.replicate f.maxLocals.toNat .null, input := last.input,
            output := last.output } := by
  unfold begin
  cases m.entry? with
  | none => simp
  | some f' =>
    unfold start?
    by_cases hroom : hasRoom f'.maxStack = true ∧ hasRoom f'.maxLocals = true
    · simp only [if_pos hroom, Except.ok.injEq, Prod.mk.injEq, Option.some.injEq]
      constructor
      · rintro ⟨rfl, rfl⟩
        exact ⟨rfl, hroom, rfl⟩
      · rintro ⟨rfl, _, rfl⟩
        exact ⟨rfl, rfl⟩
    · simp only [if_neg hroom, reduceCtorEq, Option.some.injEq, false_iff]
      rintro ⟨rfl, hroom', _⟩
      exact hroom hroom'

end Machine

end Stackling
