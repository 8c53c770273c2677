import Mathlib.Tactic.Common
import Stackling.Proofs.Assemble
import Stackling.Proofs.Machine.Kind
import Stackling.Proofs.Marked
import Stackling.Proofs.StackDepth

/-!
# Direct execution of symbolic code

Symbolic code can be executed as it stands: a jump goes on after the definition
of its label, a text constant is its own text, a label is no instruction at all,
and the stack has no bound. What is left to execute is a list of instructions,
so nothing here speaks of addresses.

* **step** — an instruction of assembled code does to a machine what the
  symbolic instruction does here (`perform_agrees`);
* **run** — the two stay in step for any number of turns, and the machine counts
  the instructions that are executed here (`advance_synced`).
-/

namespace Stackling

open Assemble StackDepth

namespace Direct

/-! ## Execution -/

/-- Code without the labels in front of it. -/
def skip (code : List Instruction) : List Instruction := code.dropWhile Instruction.isLabel

/-- The code after the definition of a label. -/
def after? (l : Label) : List Instruction → Option (List Instruction)
  | [] => none
  | .label name :: rest => if name = l then some rest else after? l rest
  | _ :: rest => after? l rest

/-- Where an execution stands. -/
structure Config where
  /-- The instructions that come next, the first of which is no label. -/
  rest : List Instruction
  /-- The operands, the topmost first. -/
  stack : List Value := []
  slots : Array Value
  input : Input
  output : Output

/-- What an execution has come to. -/
inductive Status where
  | running (c : Config)
  /-- The code was left by a return, or an error of the given kind occurred. -/
  | stopped (kind? : Option ErrorKind) (c : Config)

namespace Config

/-- Push an operand. -/
def push (c : Config) (v : Value) : Status := .running { c with stack := v :: c.stack }

/-- Go on after the definition of a label. -/
def goTo (code : List Instruction) (c : Config) (l : Label) : Status :=
  match after? l code with
  | some rest => .running { c with rest := skip rest }
  | none => .stopped (some .controlFlow) c

/-- The place of a slot, if there is such a slot. -/
def place? (c : Config) (slot : Int32) : Option Nat :=
  if 0 ≤ slot.toInt ∧ slot.toInt < c.slots.size then some slot.toInt.toNat else none

/-- Take two operands, which must be integers, and go on with them. -/
def withInts (c : Config) (k : Config → Int32 → Int32 → Status) : Status :=
  match c.stack with
  | right :: left :: stack =>
    match left.int?, right.int? with
    | some a, some b => k { c with stack } a b
    | _, _ => .stopped (some .typeMismatch) { c with stack }
  | _ => .stopped (some .stackUnderflow) c

/-- Take an input handle, read with it, and push what was read. -/
def read {α : Type} (c : Config) (scan : Input → Input × Except Scan.Fault α) (value : α → Value) :
    Status :=
  match c.stack with
  | .input :: stack =>
    match scan c.input with
    | (input, .error _) => .stopped (some .badInput) { c with stack, input }
    | (input, .ok a) => push { c with stack, input } (value a)
  | _ :: stack => .stopped (some .typeMismatch) { c with stack }
  | [] => .stopped (some .stackUnderflow) c

end Config

/-- Execute an instruction, when `c.rest` is what follows it. -/
def perform (code : List Instruction) (c : Config) : Instruction → Status
  | .pushInt value => c.push (.int value)
  | .pushText text => c.push (.text text)
  | .load _ slot =>
    match c.place? slot with
    | none => .stopped (some .badModule) c
    | some index =>
      match c.slots.getD index .null with
      | .null => .stopped (some .uninitialized) c
      | v => c.push v
  | .store _ slot =>
    match c.place? slot with
    | none => .stopped (some .badModule) c
    | some index =>
      match c.stack with
      | v :: stack => .running { c with stack, slots := c.slots.setIfInBounds index v }
      | [] => .stopped (some .stackUnderflow) c
  | .arith op => c.withInts fun c a b =>
    match op.result? a b with
    | none => .stopped (some .divisionByZero) c
    | some n => c.push (.int n)
  | .branch relation target => c.withInts fun c a b =>
    if relation.holds a b then c.goTo code target else .running c
  | .jump target => c.goTo code target
  | .label _ => .running c
  | .openOutput => c.push .output
  | .openInput => c.push .input
  | .print _ =>
    match c.stack with
    | v :: .output :: stack =>
      let line := v.render ++ [Bytes.newline]
      if c.output.accepts line.length then
        .running { c with stack, output := c.output.append line }
      else .stopped (some .full) { c with stack }
    | _ :: _ :: stack => .stopped (some .typeMismatch) { c with stack }
    | _ => .stopped (some .stackUnderflow) c
  | .readInt => c.read Scan.integer .int
  | .readLine => c.read Scan.line .text
  | .ret => .stopped none c
  | .undefined _ _ => .stopped (some .badOpcode) c

/-- One turn: execute the next instruction. -/
def turn (code : List Instruction) (c : Config) : Status :=
  match c.rest with
  | [] => .stopped (some .controlFlow) c
  | i :: rest => perform code { c with rest := skip rest } i

/-- Take a status a number of turns further. -/
def advance (code : List Instruction) : Nat → Status → Status
  | 0, status => status
  | _ + 1, .stopped kind? c => .stopped kind? c
  | n + 1, .running c => advance code n (turn code c)

/-- How many instructions are executed in a number of turns. A turn in which
nothing is left to execute does not count. -/
def executed (code : List Instruction) : Nat → Status → Nat
  | 0, _ => 0
  | _ + 1, .stopped _ _ => 0
  | n + 1, .running c => (if c.rest = [] then 0 else 1) + executed code n (turn code c)

@[simp] theorem advance_zero (code : List Instruction) (status : Status) :
    advance code 0 status = status := rfl

@[simp] theorem advance_succ (code : List Instruction) (n : Nat) (c : Config) :
    advance code (n + 1) (.running c) = advance code n (turn code c) := rfl

@[simp] theorem advance_stopped (code : List Instruction) (n : Nat) (kind? : Option ErrorKind)
    (c : Config) : advance code n (.stopped kind? c) = .stopped kind? c := by
  cases n <;> rfl

/-- Turns can be taken in two portions. -/
theorem advance_add (code : List Instruction) (m n : Nat) (status : Status) :
    advance code (m + n) status = advance code n (advance code m status) := by
  induction m generalizing status with
  | zero => simp
  | succ m ih =>
    cases status with
    | running c => rw [Nat.succ_add, advance_succ, advance_succ, ih]
    | stopped kind? c => simp

/-! ## Labels -/

@[simp] theorem skip_nil : skip [] = [] := rfl

@[simp] theorem skip_label (l : Label) (code : List Instruction) :
    skip (.label l :: code) = skip code := rfl

theorem skip_cons {i : Instruction} (hi : i.isLabel = false) (code : List Instruction) :
    skip (i :: code) = i :: code := by
  simp [skip, hi]

/-- Only labels are skipped. -/
theorem exists_skip (code : List Instruction) :
    ∃ first, code = first ++ skip code ∧ span first = 0 := by
  induction code with
  | nil => exact ⟨[], rfl, rfl⟩
  | cons i code ih =>
    cases hi : i.isLabel with
    | false => exact ⟨[], by simp [skip_cons hi], rfl⟩
    | true =>
      obtain ⟨l, rfl⟩ := eq_label_of_isLabel hi
      obtain ⟨first, hcode, hspan⟩ := ih
      exact ⟨.label l :: first, by simpa using hcode, by simpa using hspan⟩

theorem isLabel_of_skip {code rest : List Instruction} {i : Instruction}
    (h : skip code = i :: rest) : i.isLabel = false := by
  have hhead := List.head?_dropWhile_not Instruction.isLabel code
  rw [show code.dropWhile Instruction.isLabel = i :: rest from h] at hhead
  simpa using hhead

theorem after?_of_split {l : Label} {first : List Instruction} (hl : l ∉ labels first)
    (rest : List Instruction) : after? l (first ++ .label l :: rest) = some rest := by
  induction first with
  | nil => simp [after?]
  | cons i first ih =>
    cases hi : i.isLabel with
    | true =>
      obtain ⟨name, rfl⟩ := eq_label_of_isLabel hi
      simp only [labels_cons_label, List.mem_cons, not_or] at hl
      rw [List.cons_append, after?, if_neg (fun h => hl.1 h.symm), ih hl.2]
    | false =>
      rw [labels_cons hi] at hl
      have hskip : after? l (i :: (first ++ .label l :: rest))
          = after? l (first ++ .label l :: rest) := by
        cases i <;> simp_all [after?, Instruction.isLabel]
      rw [List.cons_append, hskip, ih hl]

/-! ## Machine states -/

/-- The machine state that a configuration stands for, at the given address and
after the given number of steps. -/
def Config.machine (c : Config) (pc steps : Nat) : State :=
  { pc, steps, stack := c.stack.reverse.toArray, slots := c.slots, input := c.input,
    output := c.output }

@[simp] theorem Config.size_machine (c : Config) (pc steps : Nat) :
    (c.machine pc steps).stack.size = c.stack.length := by
  simp [machine]

/-- A machine state in which the topmost operand is `v`. -/
theorem Config.pop_machine (c : Config) (pc steps : Nat) (v : Value) (stack : List Value) :
    (Config.machine { c with stack := v :: stack } pc steps).pop
      = (some v, Config.machine { c with stack } pc steps) := by
  simp [State.pop, machine]

theorem Config.push_machine (c : Config) (pc steps : Nat) (f : Frame) (v : Value)
    (hroom : (c.stack.length : Int) < f.maxStack) :
    (c.machine pc steps).push f v
      = .next (Config.machine { c with stack := v :: c.stack } (pc + 1) steps) := by
  rw [State.push, if_pos (by simpa using hroom)]
  simp [machine]

theorem Config.slotIndex?_machine (c : Config) (pc steps : Nat) (slot : Int32) :
    (c.machine pc steps).slotIndex? slot = c.place? slot := by
  unfold State.slotIndex? place?
  split
  · rename_i index hindex
    rw [hindex]
    by_cases hlt : index < c.slots.size <;> simp [machine, hlt]
  · rename_i index hindex
    rw [hindex, if_neg (by omega)]

theorem Config.withInts_machine (c : Config) (pc steps : Nat) (left right : Value)
    (stack : List Value) (k : State → Int32 → Int32 → Step) :
    (Config.machine { c with stack := right :: left :: stack } pc steps).withInts k =
      match left.int?, right.int? with
      | some a, some b => k (Config.machine { c with stack } pc steps) a b
      | _, _ => .fault (.integers left right) (Config.machine { c with stack } pc steps) := by
  rcases hleft : left.int? with _ | a
  · simp only [State.withInts, pop_machine, hleft]
  · rcases hright : right.int? with _ | b <;> simp only [State.withInts, pop_machine, hleft, hright]

theorem Config.goTo_machine (c : Config) (pc a steps : Nat) (ha : a < 2 ^ 31) :
    (c.machine pc steps).goTo (Int32.ofNat a) = .next (c.machine a steps) := by
  have htarget : (Int32.ofNat a).toInt = Int.ofNat a := Int32.toInt_ofNat_of_lt ha
  simp only [State.goTo, htarget, machine]

theorem Config.exists_one (c : Config) (h : 1 ≤ c.stack.length) :
    ∃ v stack, c.stack = v :: stack ∧ c = { c with stack := v :: stack } := by
  rcases hc : c.stack with _ | ⟨v, stack⟩
  · simp [hc] at h
  · exact ⟨v, stack, rfl, by rw [← hc]⟩

theorem Config.exists_two (c : Config) (h : 2 ≤ c.stack.length) :
    ∃ v w stack, c.stack = v :: w :: stack ∧ c = { c with stack := v :: w :: stack } := by
  rcases hc : c.stack with _ | ⟨v, _ | ⟨w, stack⟩⟩
  · simp [hc] at h
  · simp [hc] at h
  · exact ⟨v, w, stack, rfl, by rw [← hc]⟩

/-- What comes of an instruction here and there: both go on, with configurations
of which `next` holds, or both stop in the same way. -/
def StepAgrees (steps : Nat) (next : Config → Nat → Prop) : Status → Step → Prop
  | .running c, .next s => ∃ pc, next c pc ∧ s = c.machine pc steps
  | .stopped none c, .done s => ∃ pc, s = c.machine pc steps
  | .stopped (some kind) c, .fault fault s => fault.kind = kind ∧ ∃ pc, s = c.machine pc steps
  | _, _ => False

section Perform

variable {m : Module} {f : Frame} {code : List Instruction} {next : Config → Nat → Prop}
  {c : Config} {pc steps : Nat}

theorem push_agrees {v : Value} (hroom : (c.stack.length : Int) < f.maxStack)
    (hnext : next { c with stack := v :: c.stack } (pc + 1)) :
    StepAgrees steps next (c.push v) ((c.machine pc steps).push f v) := by
  rw [c.push_machine pc steps f v hroom]
  exact ⟨pc + 1, hnext, rfl⟩

theorem withInts_agrees {k : Config → Int32 → Int32 → Status} {k' : State → Int32 → Int32 → Step}
    (hsize : 2 ≤ c.stack.length)
    (hk : ∀ d a b, d.rest = c.rest → d.stack.length = c.stack.length - 2 →
      StepAgrees steps next (k d a b) (k' (d.machine pc steps) a b)) :
    StepAgrees steps next (c.withInts k) ((c.machine pc steps).withInts k') := by
  obtain ⟨right, left, stack, hstack, hsame⟩ := c.exists_two hsize
  rw [hsame, Config.withInts_machine]
  simp only [Config.withInts]
  split
  · exact hk _ _ _ rfl (by simp [hstack])
  · exact ⟨rfl, pc, rfl⟩

theorem read_agrees {α : Type} {scan : Input → Input × Except Scan.Fault α} {value : α → Value}
    (hsize : 1 ≤ c.stack.length) (hroom : (c.stack.length : Int) ≤ f.maxStack)
    (hnext : ∀ d : Config, d.rest = c.rest → d.stack.length = c.stack.length → next d (pc + 1)) :
    StepAgrees steps next (c.read scan value) ((c.machine pc steps).read f scan value) := by
  obtain ⟨handle, stack, hstack, hsame⟩ := c.exists_one hsize
  rw [hsame, State.read, Config.pop_machine]
  cases handle with
  | input =>
    simp only [Config.read]
    rw [show (Config.machine { c with stack } pc steps).input = c.input from rfl]
    rcases scan c.input with ⟨input, fault | a⟩
    · exact ⟨rfl, pc, rfl⟩
    · refine push_agrees (c := { c with stack, input }) ?_ (hnext _ rfl ?_)
      · simp only [hstack, List.length_cons] at hroom
        push_cast at hroom
        exact hroom
      · simp [hstack]
  | _ => exact ⟨rfl, pc, rfl⟩

theorem goTo_agrees {l : Label} {a : Nat} {rest : List Instruction} (hlt : a < 2 ^ 31)
    (hafter : after? l code = some rest) (hnext : next { c with rest := skip rest } a) :
    StepAgrees steps next (c.goTo code l) ((c.machine pc steps).goTo (Int32.ofNat a)) := by
  rw [c.goTo_machine pc a steps hlt]
  simp only [Config.goTo, hafter]
  exact ⟨a, hnext, rfl⟩

/-- An instruction does to a machine what it does here, if the machine has the
operands that it takes and room for those that it leaves. -/
theorem perform_agrees {i : Instruction} {cell : Code}
    (hresolves : Resolves (address? code) m.constants i cell)
    (hconstants : m.constants.size ≤ 2 ^ 31)
    (enough : Opcode.popsOf i.op ≤ c.stack.length)
    (hroom : (i.leaves c.stack.length : Int) ≤ f.maxStack)
    (hgo : i.goesOn = true → ∀ d : Config, d.rest = c.rest →
      d.stack.length = i.leaves c.stack.length → next d (pc + 1))
    (htarget : ∀ l, i.target? = some l → ∀ a, address? code l = some a →
      ∃ rest, after? l code = some rest ∧ a < 2 ^ 31 ∧ ∀ d : Config, d.rest = skip rest →
        d.stack.length = i.leaves c.stack.length → next d a) :
    StepAgrees steps next (perform code c i) ((c.machine pc steps).execute m f cell) := by
  -- the operands that an instruction takes and leaves, as numbers
  simp only [Instruction.leaves] at enough hroom hgo htarget
  cases hresolves with
  | pushInt value | openOutput | openInput =>
    simp only [Instruction.op, Opcode.popsOf_byte, Opcode.pushesOf_byte, Opcode.pops,
      Opcode.pushes] at hroom hgo
    simp only [perform, State.execute, Code.opcode?, Opcode.ofByte?_byte]
    exact push_agrees (by omega) (hgo rfl _ rfl rfl)
  | @pushText text index place =>
    simp only [Instruction.op, Opcode.popsOf_byte, Opcode.pushesOf_byte, Opcode.pops,
      Opcode.pushes] at hroom hgo
    have hlt := (Array.getElem?_eq_some_iff.mp place).1
    have hindex : (Int32.ofNat index).toInt = Int.ofNat index :=
      Int32.toInt_ofNat_of_lt (by omega)
    simp only [perform, State.execute, Code.opcode?, Opcode.ofByte?_byte, State.pushConstant,
      hindex, place]
    exact push_agrees (by omega) (hgo rfl _ rfl rfl)
  | load kind slot =>
    simp only [Instruction.op, Opcode.popsOf_byte, Opcode.pushesOf_byte, Opcode.pops,
      Opcode.pushes] at hroom hgo
    simp only [perform, State.execute, Code.opcode?, Opcode.ofByte?_byte, State.load,
      Config.slotIndex?_machine]
    cases c.place? slot with
    | none => exact ⟨rfl, pc, rfl⟩
    | some index =>
      rw [show (c.machine pc steps).slots = c.slots from rfl]
      dsimp only
      cases c.slots.getD index .null with
      | null => exact ⟨rfl, pc, rfl⟩
      | _ => exact push_agrees (by omega) (hgo rfl _ rfl rfl)
  | store kind slot =>
    simp only [Instruction.op, Opcode.popsOf_byte, Opcode.pushesOf_byte, Opcode.pops,
      Opcode.pushes] at enough hgo
    obtain ⟨v, stack, hstack, hsame⟩ := c.exists_one enough
    simp only [perform, State.execute, Code.opcode?, Opcode.ofByte?_byte, State.store,
      Config.slotIndex?_machine]
    cases c.place? slot with
    | none => exact ⟨rfl, pc, rfl⟩
    | some index =>
      rw [hsame, Config.pop_machine]
      exact ⟨pc + 1, hgo rfl _ rfl (by simp [hstack]), rfl⟩
  | arith op =>
    have hop : (c.machine pc steps).execute m f { op := op.opcode.byte }
        = (c.machine pc steps).arith f op := by
      cases op <;> simp [State.execute, Code.opcode?, Arith.opcode]
    have hpops : op.opcode.pops = 2 ∧ op.opcode.pushes = 1 := by
      cases op <;> exact ⟨rfl, rfl⟩
    simp only [Instruction.op, Opcode.popsOf_byte, Opcode.pushesOf_byte, hpops] at enough hroom hgo
    rw [hop]
    simp only [perform, State.arith]
    refine withInts_agrees enough fun d a b hrest hlength => ?_
    cases op.result? a b with
    | none => exact ⟨rfl, pc, rfl⟩
    | some n =>
      refine push_agrees (by omega) (hgo rfl _ hrest ?_)
      rw [List.length_cons, hlength]
  | @branch target a relation place =>
    simp only [Instruction.op, Opcode.popsOf_byte, Opcode.pushesOf_byte, Opcode.pops,
      Opcode.pushes, Nat.add_zero] at enough hgo htarget
    simp only [perform, State.execute, Code.opcode?, Opcode.ofByte?_byte, State.branch]
    refine withInts_agrees enough fun d x y hrest hlength => ?_
    by_cases hholds : relation.holds x y
    · obtain ⟨rest, hafter, hlt, hnext⟩ := htarget target rfl a place
      simp only [hholds, if_true]
      exact goTo_agrees hlt hafter (hnext _ rfl hlength)
    · simp only [hholds]
      exact ⟨pc + 1, hgo rfl d hrest hlength, rfl⟩
  | @jump target a place =>
    simp only [Instruction.op, Opcode.popsOf_byte, Opcode.pushesOf_byte, Opcode.pops,
      Opcode.pushes, Nat.add_zero, Nat.sub_zero] at htarget
    obtain ⟨rest, hafter, hlt, hnext⟩ := htarget target rfl a place
    simp only [perform, State.execute, Code.opcode?, Opcode.ofByte?_byte]
    exact goTo_agrees hlt hafter (hnext _ rfl rfl)
  | print kind =>
    simp only [Instruction.op, Opcode.popsOf_byte, Opcode.pushesOf_byte, Opcode.pops,
      Opcode.pushes, Nat.add_zero] at enough hgo
    obtain ⟨v, handle, stack, hstack, hsame⟩ := c.exists_two enough
    simp only [perform, State.execute, Code.opcode?, Opcode.ofByte?_byte, State.print]
    rw [hsame, Config.pop_machine]
    simp only [Config.pop_machine]
    cases handle with
    | output =>
      dsimp only
      rw [show (Config.machine { c with stack } pc steps).output = c.output from rfl]
      split
      · exact ⟨pc + 1, hgo rfl _ rfl (by simp [hstack]), rfl⟩
      · exact ⟨rfl, pc, rfl⟩
    | _ => exact ⟨rfl, pc, rfl⟩
  | readInt | readLine =>
    simp only [Instruction.op, Opcode.popsOf_byte, Opcode.pushesOf_byte, Opcode.pops,
      Opcode.pushes] at enough hroom hgo
    simp only [perform, State.execute, Code.opcode?, Opcode.ofByte?_byte]
    refine read_agrees enough (by omega) fun d hrest hlength => hgo rfl d hrest (by omega)
  | ret =>
    simp only [perform, State.execute, Code.opcode?, Opcode.ofByte?_byte]
    exact ⟨pc, rfl⟩
  | undefined op hop =>
    simp only [perform, State.execute, Code.opcode?, hop]
    exact ⟨rfl, pc, rfl⟩

end Perform

/-! ## Lockstep -/

/-- The place of a configuration: what it has left is the code from the address
on, and its stack has the depth that was recorded for the address. -/
structure Config.At (code : List Instruction) (depths : Array (Option Nat)) (c : Config)
    (pc : Nat) : Prop where
  place : ∃ first, code = first ++ c.rest ∧ span first = pc
  skipped : skip c.rest = c.rest
  depth : recorded depths pc = some c.stack.length

/-- An execution and a run that have come to the same, the run in the given number
of steps. -/
def Synced (code : List Instruction) (depths : Array (Option Nat)) (steps : Nat) :
    Status → Stackling.Status → Prop
  | .running c, .running s => ∃ pc, c.At code depths pc ∧ s = c.machine pc steps
  | .stopped kind? c, .stopped outcome s =>
    outcome.kind? = kind? ∧ ∃ pc, s = c.machine pc steps
  | _, _ => False

/-- An execution and a run that have come to the same, the run in any number of steps. -/
def Lockstep (code : List Instruction) (depths : Array (Option Nat)) (here : Status)
    (there : Stackling.Status) : Prop :=
  ∃ steps, Synced code depths steps here there

theorem skip_skip (code : List Instruction) : skip (skip code) = skip code := by
  cases h : skip code with
  | nil => rfl
  | cons i rest => exact skip_cons (isLabel_of_skip h) rest

section Lockstep

variable {m : Module} {f : Frame} {code : List Instruction} {depths : Array (Option Nat)}
  {n : Nat}

/-- A configuration that goes on with what follows a part of the code. -/
theorem Config.At.of_split (first : List Instruction) {rest : List Instruction} {d : Config}
    (hcode : code = first ++ rest) (hrest : d.rest = skip rest)
    (hdepth : recorded depths (span first) = some d.stack.length) :
    d.At code depths (span first) := by
  obtain ⟨ls, hls, hspan⟩ := exists_skip rest
  refine ⟨⟨first ++ ls, ?_, by simp [hspan]⟩, by rw [hrest, skip_skip], hdepth⟩
  rw [hcode, hrest, List.append_assoc, ← hls]

/-- What a turn of the machine makes of the step that a state takes. -/
private def turned (m : Module) (f : Frame) (before : State) (op : UInt8) :
    Step → Stackling.Status
  | .next s => .running s
  | .done s => .stopped .returned s
  | .fault fault s => .stopped (.fault m.name f.name before.pc op fault) s
  | .crash => .stopped .crashed before

private theorem synced_turned (before : State) {steps : Nat} (op : UInt8) {here : Status}
    {step : Step} (h : StepAgrees steps (Config.At code depths) here step) :
    Synced code depths steps here (turned m f before op step) := by
  rcases here with c | ⟨_ | kind, c⟩
  · cases step with
    | next s => exact h
    | _ => exact h.elim
  · cases step with
    | done s => exact ⟨rfl, h⟩
    | _ => exact h.elim
  · cases step with
    | fault fault s => exact ⟨congrArg some h.1, h.2⟩
    | _ => exact h.elim

/-- An address with a recorded depth is one of the code, so something is left to
execute there. -/
theorem Config.At.exists_cons (hresolved : Resolved m.constants code f.code)
    (hconsistent : Consistent f.code (recorded depths) n) {c : Config} {pc : Nat}
    (hc : c.At code depths pc) : ∃ i rest, c.rest = i :: rest := by
  rcases hnil : c.rest with _ | ⟨i, rest⟩
  · obtain ⟨cell, hcell, _⟩ := hconsistent.agrees pc _ hc.depth
    obtain ⟨first, hcode, rfl⟩ := hc.place
    have hlt := (Array.getElem?_eq_some_iff.mp hcell).1
    rw [hresolved.size_code, hcode, hnil] at hlt
    simp at hlt
  · exact ⟨i, rest, rfl⟩

/-- One turn on both sides. -/
theorem turn_synced (hresolved : Resolved m.constants code f.code)
    (hconsistent : Consistent f.code (recorded depths) n) (hmax : f.maxStack = n)
    (hspan : span code < 2 ^ 31) (hconstants : m.constants.size ≤ 2 ^ 31) {c : Config} {pc : Nat}
    (hc : c.At code depths pc) (steps : Nat) :
    Synced code depths (steps + 1) (turn code c) (Machine.turn m f {} (c.machine pc steps)) := by
  obtain ⟨i, rest, hrest⟩ := hc.exists_cons hresolved hconsistent
  obtain ⟨cell, hcell, enough, hdeep, hnext⟩ := hconsistent.agrees pc _ hc.depth
  obtain ⟨first, hcode, rfl⟩ := hc.place
  have hi : i.isLabel = false := isLabel_of_skip (hrest ▸ hc.skipped)
  rw [hrest] at hcode
  obtain ⟨cell', hcell', hresolves⟩ := hresolved.code_of_split hcode hi
  obtain rfl : cell = cell' := Option.some.inj (hcell.symm.trans hcell')
  rw [hresolves.op_eq] at enough
  rw [hresolves.after_eq] at hdeep hnext
  have hstep : StepAgrees (steps + 1) (Config.At code depths)
      (perform code { c with rest := skip rest } i)
      ((Config.machine { c with rest := skip rest } (span first) (steps + 1)).execute
        m f cell) := by
    refine perform_agrees hresolves hconstants enough (by rw [hmax]; exact_mod_cast hdeep) ?_ ?_
    · -- control goes on with the next instruction
      intro hgoes d hd hlength
      obtain ⟨a, ha, hdepth⟩ := hnext _ (hresolves.mem_successors.mpr (.inl ⟨hgoes, rfl⟩))
      obtain rfl : a = span first + 1 := by omega
      have hplace : span (first ++ [i]) = span first + 1 := by simp [span_cons hi]
      rw [← hplace] at hdepth ⊢
      exact .of_split _ (by simpa using hcode) hd (by rw [hdepth, hlength])
    · -- control goes to a label, which has the address of what follows it
      intro l hl a ha
      obtain ⟨before, more, hlabel, hfresh, rfl⟩ := split_of_address? ha
      have hlt : span before < 2 ^ 31 := by
        rw [hlabel] at hspan
        simp only [span_append, span_cons_label] at hspan
        omega
      refine ⟨more, by rw [hlabel]; exact after?_of_split hfresh more, hlt, ?_⟩
      intro d hd hlength
      obtain ⟨b, hb, hdepth⟩ := hnext _
        (hresolves.mem_successors.mpr (.inr ⟨l, _, hl, ha, rfl⟩))
      rw [Int32.toInt_ofNat_of_lt hlt] at hb
      obtain rfl : b = span before := by omega
      have hplace : span (before ++ [.label l]) = span before := by simp
      rw [← hplace] at hdepth ⊢
      exact .of_split _ (by simpa using hlabel) hd (by rw [hdepth, hlength])
  have hturn : turn code c = perform code { c with rest := skip rest } i := by
    simp only [turn, hrest]
  -- the machine counts a turn before it executes
  have hmachine : Machine.turn m f {} (c.machine (span first) steps) =
      turned m f (c.machine (span first) (steps + 1)) cell.op
        ((Config.machine { c with rest := skip rest } (span first) (steps + 1)).execute m f
          cell) := by
    have hpc : f.code[(c.machine (span first) steps).pc]? = some cell := hcell
    simp only [Machine.turn, hpc]
    rfl
  rw [hturn, hmachine]
  exact synced_turned _ _ hstep

/-- Any number of turns on both sides. The run counts the instructions that are
executed. -/
theorem advance_synced (hresolved : Resolved m.constants code f.code)
    (hconsistent : Consistent f.code (recorded depths) n) (hmax : f.maxStack = n)
    (hspan : span code < 2 ^ 31) (hconstants : m.constants.size ≤ 2 ^ 31) (turns : Nat)
    {steps : Nat} {here : Status} {there : Stackling.Status}
    (h : Synced code depths steps here there) :
    Synced code depths (steps + executed code turns here) (advance code turns here)
      (Machine.advance m f {} turns there) := by
  induction turns generalizing steps here there with
  | zero => exact h
  | succ turns ih =>
    cases here with
    | stopped kind? c =>
      cases there with
      | stopped outcome s => exact h
      | running s => exact h.elim
    | running c =>
      cases there with
      | stopped outcome s => exact h.elim
      | running s =>
        obtain ⟨pc, hc, rfl⟩ := h
        obtain ⟨i, rest, hrest⟩ := hc.exists_cons hresolved hconsistent
        have hcount : steps + executed code (turns + 1) (.running c)
            = steps + 1 + executed code turns (turn code c) := by
          rw [executed, if_neg (by simp [hrest]), Nat.add_assoc]
        rw [hcount]
        exact ih (turn_synced hresolved hconsistent hmax hspan hconstants hc steps)

/-- Any number of turns on both sides, not counted. -/
theorem advance_lockstep (hresolved : Resolved m.constants code f.code)
    (hconsistent : Consistent f.code (recorded depths) n) (hmax : f.maxStack = n)
    (hspan : span code < 2 ^ 31) (hconstants : m.constants.size ≤ 2 ^ 31) (turns : Nat)
    {here : Status} {there : Stackling.Status} (h : Lockstep code depths here there) :
    Lockstep code depths (advance code turns here) (Machine.advance m f {} turns there) := by
  obtain ⟨steps, h⟩ := h
  exact ⟨_, advance_synced hresolved hconsistent hmax hspan hconstants turns h⟩

end Lockstep

end Direct

end Stackling
