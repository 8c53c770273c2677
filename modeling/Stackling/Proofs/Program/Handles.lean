import Mathlib.Tactic.Common
import Stackling.Proofs.Machine.Run
import Stackling.Proofs.Program.Slots

/-!
# Where handles go

The handles of input and output are values like any other, and nothing in the
machine keeps them apart. In the code of a program they stay where they belong:

* **pieces** — within a `PRINT` or a `READ` there is one handle among the
  operands, where the next instructions want it, and between the pieces of the
  code there is none (`Stage`);
* **step** — one instruction leads from a stage to a stage, keeps handles out of
  the slots of variables and all else out of the slots for handles, and fails
  for want of a handle never (`State.Kept.execute`);
* **run** — so it is after any number of turns (`Machine.advance_kept`).
-/

namespace Stackling

open Assemble

/-! ## Handles among values -/

/-- Whether a value is a handle. -/
def Value.isHandle : Value → Bool
  | .output | .input => true
  | .null | .int _ | .text _ => false

/-- Operands without a handle among them. -/
def IsData (stack : Array Value) : Prop :=
  ∀ (j : Nat) (v : Value), stack[j]? = some v → v.isHandle = false

namespace IsData

variable {stack below : Array Value} {v w : Value} {j : Nat}

theorem back (h : IsData stack) (hv : stack.back? = some v) : v.isHandle = false :=
  h _ v (Array.back?_eq_getElem? ▸ hv)

theorem push (h : IsData stack) (hv : v.isHandle = false) : IsData (stack.push v) := by
  intro j w hw
  rw [Array.getElem?_push] at hw
  split_ifs at hw
  · exact Option.some.inj hw ▸ hv
  · exact h j w hw

theorem pop (h : IsData stack) : IsData stack.pop := by
  intro j w hw
  rw [Array.getElem?_pop] at hw
  split_ifs at hw
  exact h j w hw

/-- A handle on top of data is the only one. -/
theorem top (h : IsData below) (hstack : stack = below.push v) (hj : stack[j]? = some w)
    (hw : w.isHandle = true) : j + 1 = stack.size ∧ w = v := by
  subst hstack
  rw [Array.getElem?_push] at hj
  split_ifs at hj with heq
  · exact ⟨by rw [heq, Array.size_push], (Option.some.inj hj).symm⟩
  · rw [h j w hj] at hw
    cases hw

/-- So is a handle with only a datum on top of it. -/
theorem second (h : IsData below) (hv : v.isHandle = false) {u : Value}
    (hstack : stack = (below.push u).push v) (hj : stack[j]? = some w)
    (hw : w.isHandle = true) : j + 2 = stack.size ∧ w = u := by
  subst hstack
  rw [Array.getElem?_push] at hj
  split_ifs at hj with heq
  · rw [← Option.some.inj hj, hv] at hw
    cases hw
  · obtain ⟨hsize, rfl⟩ := h.top rfl hj hw
    exact ⟨by rw [Array.size_push, ← hsize], rfl⟩

end IsData

/-- What the slot may hold: the value of a variable if it is one of the first
`vars`, and else, if anything, an input handle. -/
def Value.Suits (vars slot : Nat) (v : Value) : Prop :=
  if slot < vars then v.isHandle = false else v = .null ∨ v = .input

/-- So many slots, with what each of them may hold. -/
structure SlotsKept (vars count : Nat) (slots : Array Value) : Prop where
  size : slots.size = count
  suits : ∀ (i : Nat) (v : Value), slots[i]? = some v → v.Suits vars i

theorem SlotsKept.set {vars count : Nat} {slots : Array Value} (h : SlotsKept vars count slots)
    {i : Nat} {v : Value} (hv : v.Suits vars i) :
    SlotsKept vars count (slots.setIfInBounds i v) := by
  refine ⟨by rw [Array.size_setIfInBounds, h.size], fun j w hw => ?_⟩
  rw [Array.getElem?_setIfInBounds] at hw
  split_ifs at hw with heq
  · obtain rfl := Option.some.inj hw
    exact heq ▸ hv
  · exact h.suits j w hw

/-- The first slots hold values of variables. -/
theorem SlotsKept.value {vars count i : Nat} {slots : Array Value} (h : SlotsKept vars count slots)
    (hi : i < vars) (hlt : i < count) : ∃ v, slots[i]? = some v ∧ v.isHandle = false := by
  have hv := Array.getElem?_eq_getElem (h.size.symm ▸ hlt : i < slots.size)
  have hsuits := h.suits i _ hv
  rw [Value.Suits, if_pos hi] at hsuits
  exact ⟨_, hv, hsuits⟩

/-- The other slots are for handles. -/
theorem SlotsKept.handle {vars count i : Nat} {slots : Array Value} (h : SlotsKept vars count slots)
    (hi : vars ≤ i) (hlt : i < count) : ∃ v, slots[i]? = some v ∧ (v = .null ∨ v = .input) := by
  have hv := Array.getElem?_eq_getElem (h.size.symm ▸ hlt : i < slots.size)
  have hsuits := h.suits i _ hv
  rw [Value.Suits, if_neg (by omega)] at hsuits
  exact ⟨_, hv, hsuits⟩

/-! ## Stages -/

/-- A `PRINT` that stands at `base` in code that is in pieces. -/
structure PrintAt (table : SymbolTable) (vars count : Nat) (whole : List Instruction) (base : Nat)
    (value : Instruction) (kind : Kind) (rest : List Instruction) : Prop where
  printable : value.IsPrintable table
  here : StandsAt whole base (.openOutput :: value :: .print kind :: rest)
  pieces : ∃ low, vars ≤ low ∧ InPieces table low rest count

/-- A `READ` that stands at `base` in code that is in pieces. -/
structure ReadAt (table : SymbolTable) (vars count : Nat) (whole : List Instruction) (base : Nat)
    (slot : Nat) (reader : Instruction) (rest : List Instruction) : Prop where
  slot_ge : vars ≤ slot
  reads : reader = .readInt ∨ reader = .readLine
  here : StandsAt whole base (.openInput :: .store .ref (.ofNat slot) :: .load .ref (.ofNat slot)
    :: reader :: rest)
  pieces : InPieces table (slot + 1) rest count

/-- How far a machine has come in code that is in pieces, and what its operands and
slots then are: it is between two pieces, or in the middle of a `PRINT` or of a
`READ` that starts at `base`. -/
inductive Stage (table : SymbolTable) (vars count : Nat) (whole : List Instruction) (pc : Nat)
    (stack slots : Array Value) : Prop
  | between {low : Nat} {rest : List Instruction} (low_ge : vars ≤ low)
      (pieces : InPieces table low rest count) (here : StandsAt whole pc rest)
      (data : IsData stack) : Stage table vars count whole pc stack slots
  | printing {base : Nat} {value : Instruction} {kind : Kind} {rest : List Instruction}
      {below : Array Value} (piece : PrintAt table vars count whole base value kind rest)
      (pc_eq : pc = base + 1) (stack_eq : stack = below.push .output) (data : IsData below) :
      Stage table vars count whole pc stack slots
  | printed {base : Nat} {value : Instruction} {kind : Kind} {rest : List Instruction}
      {below : Array Value} {v : Value}
      (piece : PrintAt table vars count whole base value kind rest) (pc_eq : pc = base + 2)
      (stack_eq : stack = (below.push .output).push v) (data : IsData below)
      (datum : v.isHandle = false) : Stage table vars count whole pc stack slots
  | opened {base slot : Nat} {reader : Instruction} {rest : List Instruction}
      {below : Array Value} (piece : ReadAt table vars count whole base slot reader rest)
      (pc_eq : pc = base + 1) (stack_eq : stack = below.push .input) (data : IsData below) :
      Stage table vars count whole pc stack slots
  | stored {base slot : Nat} {reader : Instruction} {rest : List Instruction}
      (piece : ReadAt table vars count whole base slot reader rest) (pc_eq : pc = base + 2)
      (kept : slots[slot]? = some .input) (data : IsData stack) :
      Stage table vars count whole pc stack slots
  | fetched {base slot : Nat} {reader : Instruction} {rest : List Instruction}
      {below : Array Value} (piece : ReadAt table vars count whole base slot reader rest)
      (pc_eq : pc = base + 3) (stack_eq : stack = below.push .input) (data : IsData below) :
      Stage table vars count whole pc stack slots

section Pieces

variable {table : SymbolTable} {vars count base slot : Nat} {whole rest : List Instruction}
  {value reader : Instruction} {kind : Kind} {stack slots : Array Value}

theorem PrintAt.value_at (h : PrintAt table vars count whole base value kind rest) :
    StandsAt whole (base + 1) (value :: .print kind :: rest) := h.here.next rfl

theorem PrintAt.print_at (h : PrintAt table vars count whole base value kind rest) :
    StandsAt whole (base + 2) (.print kind :: rest) := h.value_at.next h.printable.isLabel

/-- After a `PRINT` the machine is between pieces again. -/
theorem PrintAt.between (h : PrintAt table vars count whole base value kind rest)
    (data : IsData stack) : Stage table vars count whole (base + 3) stack slots := by
  obtain ⟨low, low_ge, pieces⟩ := h.pieces
  exact .between low_ge pieces (h.print_at.next rfl) data

theorem ReadAt.slot_lt (h : ReadAt table vars count whole base slot reader rest) :
    slot < count := by
  have hcount := h.pieces.count_openInput
  omega

theorem ReadAt.isLabel (h : ReadAt table vars count whole base slot reader rest) :
    reader.isLabel = false := by
  rcases h.reads with rfl | rfl <;> rfl

theorem ReadAt.store_at (h : ReadAt table vars count whole base slot reader rest) :
    StandsAt whole (base + 1)
      (.store .ref (.ofNat slot) :: .load .ref (.ofNat slot) :: reader :: rest) := h.here.next rfl

theorem ReadAt.load_at (h : ReadAt table vars count whole base slot reader rest) :
    StandsAt whole (base + 2) (.load .ref (.ofNat slot) :: reader :: rest) := h.store_at.next rfl

theorem ReadAt.reader_at (h : ReadAt table vars count whole base slot reader rest) :
    StandsAt whole (base + 3) (reader :: rest) := h.load_at.next rfl

/-- After a value is read the machine is between pieces again. -/
theorem ReadAt.between (h : ReadAt table vars count whole base slot reader rest)
    (data : IsData stack) : Stage table vars count whole (base + 4) stack slots :=
  .between (Nat.le_succ_of_le h.slot_ge) h.pieces (h.reader_at.next h.isLabel) data

end Pieces

/-! ## Operands in their place -/

/-- The operation at an address. -/
def Frame.HasAt (f : Frame) (pc : Nat) (op : Opcode) : Prop :=
  ∃ c, f.code[pc]? = some c ∧ c.opcode? = some op

/-- The operation at an address, on a slot that is no variable's. -/
def Frame.HasHandleAt (f : Frame) (vars pc : Nat) (op : Opcode) : Prop :=
  ∃ c, f.code[pc]? = some c ∧ c.opcode? = some op ∧ (vars : Int) ≤ c.operand.toInt

/-- A handle among the operands has just been pushed: an input handle lies on top,
between the instruction that has pushed it and the one that takes it, and the
output handle lies below what is to be printed. -/
structure State.HandlesInPlace (f : Frame) (vars : Nat) (s : State) : Prop where
  input : ∀ j, s.stack[j]? = some .input → j + 1 = s.stack.size ∧ ∃ pc, s.pc = pc + 1 ∧
    (f.HasAt pc .openInput ∧ f.HasHandleAt vars (pc + 1) .store ∨
      f.HasHandleAt vars pc .load ∧ (f.HasAt (pc + 1) .readInt ∨ f.HasAt (pc + 1) .readLine))
  output : ∀ j, s.stack[j]? = some .output → ∃ pc, f.HasAt pc .openOutput ∧
    f.HasAt (pc + 2) .print ∧
    (s.pc = pc + 1 ∧ j + 1 = s.stack.size ∨ s.pc = pc + 2 ∧ j + 2 = s.stack.size)

theorem State.handlesInPlace_of_isData {f : Frame} {vars : Nat} {s : State}
    (h : IsData s.stack) : s.HandlesInPlace f vars :=
  ⟨fun j hj => absurd (h j _ hj) (by decide), fun j hj => absurd (h j _ hj) (by decide)⟩

section Resolved

variable {pool : Pool} {whole rest : List Instruction} {f : Frame} {base : Nat} {i : Instruction}

theorem Assemble.Resolved.hasAt (h : Resolved pool whole f.code) (op : Opcode)
    (hat : StandsAt whole base (i :: rest)) (hi : i.isLabel = false) (hop : i.op = op.byte) :
    f.HasAt base op := by
  obtain ⟨c, hc, hresolves⟩ := h.code_at hat hi
  exact ⟨c, hc, by rw [Code.opcode?, hresolves.op_eq, hop, Opcode.ofByte?_byte]⟩

theorem Assemble.Resolved.hasHandleAt (h : Resolved pool whole f.code) (op : Opcode)
    (hat : StandsAt whole base (i :: rest)) (hi : i.isLabel = false) (hop : i.op = op.byte)
    {vars slot : Nat} (hslot : i.slot? = some (.ofNat slot)) (hvars : vars ≤ slot)
    (hlt : slot < 2 ^ 31) : f.HasHandleAt vars base op := by
  obtain ⟨c, hc, hresolves⟩ := h.code_at hat hi
  have hoperand : c.operand = .ofNat slot := by
    cases hresolves with
    | load | store => exact Option.some.inj hslot
    | _ => cases hslot
  refine ⟨c, hc, by rw [Code.opcode?, hresolves.op_eq, hop, Opcode.ofByte?_byte], ?_⟩
  rw [hoperand, Int32.toInt_ofNat_of_lt hlt]
  exact Int.ofNat_le.mpr hvars

end Resolved

/-- What is known of a frame whose code is in pieces: `whole` is the code it was
resolved from, and its slots are those of the declarations and of the handles. -/
structure Frame.Orderly (m : Module) (f : Frame) (table : SymbolTable) (ds : List Declaration)
    (count : Nat) (whole : List Instruction) : Prop where
  lists : table.Lists ds
  pieces : InPieces table ds.length whole count
  resolved : Resolved m.constants whole f.code
  span_lt : span whole < 2 ^ 31
  count_lt : count < 2 ^ 31

section Orderly

variable {m : Module} {f : Frame} {table : SymbolTable} {ds : List Declaration} {count : Nat}
  {whole : List Instruction}

/-- In every stage handles are in their place. -/
theorem Stage.handlesInPlace (hf : f.Orderly m table ds count whole) {s : State}
    (h : Stage table ds.length count whole s.pc s.stack s.slots) :
    s.HandlesInPlace f ds.length := by
  have hres := hf.resolved
  have hcount := hf.count_lt
  cases h with
  | between _ _ _ data | stored _ _ _ data => exact State.handlesInPlace_of_isData data
  | printing piece pc_eq stack_eq data =>
    have hopen := hres.hasAt .openOutput piece.here rfl rfl
    have hprint := hres.hasAt .print piece.print_at rfl rfl
    refine ⟨fun j hj => ?_, fun j hj => ?_⟩
    · cases (data.top stack_eq hj rfl).2
    · exact ⟨_, hopen, hprint, .inl ⟨pc_eq, (data.top stack_eq hj rfl).1⟩⟩
  | printed piece pc_eq stack_eq data datum =>
    have hopen := hres.hasAt .openOutput piece.here rfl rfl
    have hprint := hres.hasAt .print piece.print_at rfl rfl
    refine ⟨fun j hj => ?_, fun j hj => ?_⟩
    · cases (data.second datum stack_eq hj rfl).2
    · exact ⟨_, hopen, hprint, .inr ⟨pc_eq, (data.second datum stack_eq hj rfl).1⟩⟩
  | opened piece pc_eq stack_eq data =>
    have hlt := piece.slot_lt
    have hopen := hres.hasAt .openInput piece.here rfl rfl
    have hstore := hres.hasHandleAt .store piece.store_at rfl rfl rfl piece.slot_ge (by omega)
    refine ⟨fun j hj => ?_, fun j hj => ?_⟩
    · exact ⟨(data.top stack_eq hj rfl).1, _, pc_eq, .inl ⟨hopen, hstore⟩⟩
    · cases (data.top stack_eq hj rfl).2
  | fetched piece pc_eq stack_eq data =>
    have hlt := piece.slot_lt
    have hload := hres.hasHandleAt .load piece.load_at rfl rfl rfl piece.slot_ge (by omega)
    refine ⟨fun j hj => ?_, fun j hj => ?_⟩
    · refine ⟨(data.top stack_eq hj rfl).1, _, pc_eq, .inr ⟨hload, ?_⟩⟩
      have hreader := piece.reader_at
      rcases piece.reads with rfl | rfl
      · exact .inl (hres.hasAt .readInt hreader rfl rfl)
      · exact .inr (hres.hasAt .readLine hreader rfl rfl)
    · cases (data.top stack_eq hj rfl).2

end Orderly

/-! ## One instruction -/

/-- The states of a run that is not over: slots hold what they may, and the operands
fit the place in the code. -/
structure State.Kept (table : SymbolTable) (vars count : Nat) (whole : List Instruction)
    (s : State) : Prop where
  slots : SlotsKept vars count s.slots
  stage : Stage table vars count whole s.pc s.stack s.slots

/-- What can be seen of a state, also when the run is over. -/
structure State.InOrder (f : Frame) (vars count : Nat) (s : State) : Prop where
  slots : SlotsKept vars count s.slots
  handles : s.HandlesInPlace f vars

/-- A fault that has to do with types or empty slots comes of the values of
variables: an operation on integers did not get them, or a variable had none.
What wants a handle finds it. -/
def Fault.ByData (vars : Nat) (c : Code) : Fault → Prop
  | .integers _ _ => c.opcode? ∈ [some .add, some .sub, some .mul, some .div, some .branch]
  | .printTo _ | .readFrom _ => False
  | .uninitialized _ => c.opcode? = some .load ∧ 0 ≤ c.operand.toInt ∧ c.operand.toInt < vars
  | _ => True

/-- What may come of an instruction: the run goes on in a state with the one property,
or has ended in a state with the other. -/
def Step.Keeps (next ended : State → Prop) (vars : Nat) (c : Code) : Step → Prop
  | .next t => next t
  | .done t => ended t
  | .fault reason t => ended t ∧ reason.ByData vars c
  | .crash => True

section Operations

variable {next ended : State → Prop} {vars : Nat} {c : Code} {m : Module} {f : Frame} {s : State}

theorem State.push_keeps {v : Value} (hended : ended s)
    (hnext : next { s with stack := s.stack.push v, pc := s.pc + 1 }) :
    (s.push f v).Keeps next ended vars c := by
  unfold State.push
  split_ifs
  · exact hnext
  · exact ⟨hended, trivial⟩

theorem State.goTo_keeps {address : Int32} {a : Nat} (haddress : address.toInt = a)
    (hnext : next { s with pc := a }) : (s.goTo address).Keeps next ended vars c := by
  have hcast : address.toInt = Int.ofNat a := haddress
  simp only [State.goTo, hcast]
  exact hnext

theorem State.pushConstant_keeps {index : Int32} (hended : ended s)
    (hnext : ∀ text, next { s with stack := s.stack.push (.text text), pc := s.pc + 1 }) :
    (s.pushConstant m f index).Keeps next ended vars c := by
  unfold State.pushConstant
  split
  · trivial
  · split
    · exact ⟨hended, trivial⟩
    · exact State.push_keeps hended (hnext _)

theorem State.slotIndex?_ofNat {n : Nat} (hn : n < s.slots.size) (hlt : n < 2 ^ 31) :
    s.slotIndex? (.ofNat n) = some n := by
  have hint : (Int32.ofNat n).toInt = Int.ofNat n := Int32.toInt_ofNat_of_lt hlt
  simp only [State.slotIndex?, hint, if_pos hn]

/-- Data is taken in pairs; if they are no integers, that is not for want of a handle. -/
theorem State.withInts_keeps {k : State → Int32 → Int32 → Step} (hdata : IsData s.stack)
    (hc : c.opcode? ∈ [some .add, some .sub, some .mul, some .div, some .branch])
    (hended : ∀ stack, IsData stack → ended { s with stack })
    (hk : ∀ stack a b, IsData stack → (k { s with stack } a b).Keeps next ended vars c) :
    (s.withInts k).Keeps next ended vars c := by
  simp only [State.withInts, State.pop]
  cases s.stack.back? with
  | none => exact ⟨hended _ hdata.pop, trivial⟩
  | some right =>
    dsimp only
    cases s.stack.pop.back? with
    | none => exact ⟨hended _ hdata.pop.pop, trivial⟩
    | some left =>
      dsimp only
      split
      · exact hk _ _ _ hdata.pop.pop
      · exact ⟨hended _ hdata.pop.pop, hc⟩

theorem State.print_keeps {below : Array Value} {v : Value}
    (hstack : s.stack = (below.push .output).push v) (hended : ended { s with stack := below })
    (hnext : ∀ output, next { s with stack := below, output, pc := s.pc + 1 }) :
    s.print.Keeps next ended vars c := by
  simp only [State.print, State.pop, hstack, Array.back?_push, Array.pop_push]
  split_ifs
  · exact hnext _
  · exact ⟨hended, trivial⟩

theorem State.read_keeps {α : Type} {scan : Input → Input × Except Scan.Fault α}
    {value : α → Value} {below : Array Value} (hstack : s.stack = below.push .input)
    (hended : ∀ input, ended { s with stack := below, input })
    (hnext : ∀ input a, next { s with stack := below.push (value a), input, pc := s.pc + 1 }) :
    (s.read f scan value).Keeps next ended vars c := by
  simp only [State.read, State.pop, hstack, Array.back?_push, Array.pop_push]
  split
  · exact ⟨hended _, trivial⟩
  · exact State.push_keeps (hended _) (hnext _ _)

end Operations

section Step

variable {m : Module} {f : Frame} {table : SymbolTable} {ds : List Declaration} {count : Nat}
  {whole : List Instruction} {s : State} {c : Code} {i : Instruction}
  (hf : f.Orderly m table ds count whole)
include hf

theorem State.Kept.inOrder (hs : s.Kept table ds.length count whole) :
    s.InOrder f ds.length count := ⟨hs.slots, hs.stage.handlesInPlace hf⟩

theorem Frame.Orderly.vars_le : ds.length ≤ count := by
  have hcount := hf.pieces.count_openInput
  omega

/-- A variable of the program has one of the first slots. -/
theorem Frame.Orderly.slotIndex? (hslots : SlotsKept ds.length count s.slots) {x : Bytes}
    {v : Variable} (found : table.find? x = some v) :
    ∃ n < ds.length, v.slot32.toInt = n ∧ s.slotIndex? v.slot32 = some n ∧
      ∃ w, s.slots[n]? = some w ∧ w.isHandle = false := by
  obtain ⟨_, n, hn, hslot, _⟩ := hf.lists.slot_of_find? found
  have hle := hf.vars_le
  have hcount := hf.count_lt
  have hsize : n < s.slots.size := by
    rw [hslots.size]
    omega
  rw [Variable.slot32_eq hslot]
  exact ⟨n, hn, Int32.toInt_ofNat_of_lt (by omega), State.slotIndex?_ofNat hsize (by omega),
    hslots.value hn (by omega)⟩

/-- An instruction that pushes the value of a variable, or a text. -/
theorem State.execute_printable {next ended : State → Prop}
    (hslots : SlotsKept ds.length count s.slots) (hc : Resolves (address? whole) m.constants i c)
    (printable : i.IsPrintable table) (hended : ended s)
    (hnext : ∀ v : Value, v.isHandle = false →
      next { s with stack := s.stack.push v, pc := s.pc + 1 }) :
    (s.execute m f c).Keeps next ended ds.length c := by
  cases i with
  | load kind slot =>
    obtain ⟨x, v, found, rfl⟩ := printable
    obtain ⟨n, hn, hint, hindex, w, hw, hdata⟩ := hf.slotIndex? hslots found
    cases hc
    have hget : s.slots.getD n .null = w := by simp [Array.getD_eq_getD_getElem?, hw]
    simp only [State.execute, Code.opcode?, Opcode.ofByte?_byte, State.load, hindex, hget]
    cases w with
    | null =>
      refine ⟨hended, rfl, ?_⟩
      simp only [hint]
      omega
    | int | text => exact State.push_keeps hended (hnext _ rfl)
    | output | input => cases hdata
  | pushText text =>
    cases hc
    simp only [State.execute, Code.opcode?, Opcode.ofByte?_byte]
    exact State.pushConstant_keeps hended fun text => hnext _ rfl
  | _ => exact printable.elim

/-- Labels stand between pieces, so that is where jumps lead. -/
theorem Frame.Orderly.kept_of_address? (hslots : SlotsKept ds.length count s.slots) {l : Label}
    {a : Nat} (ha : address? whole l = some a) {stack : Array Value} (hdata : IsData stack) :
    State.Kept table ds.length count whole { s with stack, pc := a } := by
  obtain ⟨first, rest, hwhole, _, rfl⟩ := split_of_address? ha
  obtain ⟨middle, hle, hpieces⟩ := InPieces.of_label (hwhole ▸ hf.pieces)
  exact ⟨hslots, .between hle hpieces ⟨first, hwhole, rfl⟩ hdata⟩

/-- An instruction that is a piece of its own. -/
theorem State.execute_plain {low : Nat} {rest : List Instruction}
    (hslots : SlotsKept ds.length count s.slots) (hdata : IsData s.stack) (low_ge : ds.length ≤ low)
    (pieces : InPieces table low rest count) (here : StandsAt whole s.pc (i :: rest))
    (hi : i.isLabel = false) (plain : i.IsPlain table)
    (hc : Resolves (address? whole) m.constants i c) :
    (s.execute m f c).Keeps (State.Kept table ds.length count whole)
      (State.InOrder f ds.length count) ds.length c := by
  have hended : ∀ stack, IsData stack → State.InOrder f ds.length count { s with stack } :=
    fun _ hstack => ⟨hslots, State.handlesInPlace_of_isData hstack⟩
  have hgo : ∀ (slots stack : Array Value), SlotsKept ds.length count slots → IsData stack →
      State.Kept table ds.length count whole { s with slots, stack, pc := s.pc + 1 } :=
    fun _ _ hslots hstack => ⟨hslots, .between low_ge pieces (here.next hi) hstack⟩
  cases i with
  | pushInt value =>
    cases hc
    exact State.push_keeps (hended _ hdata) (hgo _ _ hslots (hdata.push rfl))
  | pushText | load =>
    exact State.execute_printable hf hslots hc plain (hended _ hdata)
      fun v hv => hgo _ _ hslots (hdata.push hv)
  | store kind slot =>
    obtain ⟨x, v, found, rfl⟩ := plain
    obtain ⟨n, hn, _, hindex, _⟩ := hf.slotIndex? hslots found
    cases hc
    simp only [State.execute, Code.opcode?, Opcode.ofByte?_byte, State.store, hindex, State.pop]
    cases hback : s.stack.back? with
    | none => exact ⟨hended _ hdata.pop, trivial⟩
    | some w =>
      refine hgo _ _ (hslots.set ?_) hdata.pop
      rw [Value.Suits, if_pos hn]
      exact hdata.back hback
  | arith op =>
    cases hc
    have hexecute : s.execute m f { op := op.opcode.byte } = s.arith f op := by
      cases op <;> rfl
    rw [hexecute]
    refine State.withInts_keeps hdata (by cases op <;> decide) hended fun stack a b hstack => ?_
    cases op.result? a b with
    | none => exact ⟨hended _ hstack, trivial⟩
    | some n => exact State.push_keeps (hended _ hstack) (hgo _ _ hslots (hstack.push rfl))
  | branch relation target =>
    cases hc with
    | branch _ place =>
      refine State.withInts_keeps hdata (by simp [Code.opcode?]) hended fun stack a b hstack => ?_
      split_ifs
      · exact State.goTo_keeps (toInt_of_address? place hf.span_lt)
          (hf.kept_of_address? hslots place hstack)
      · exact hgo _ _ hslots hstack
  | jump target =>
    cases hc with
    | jump place =>
      exact State.goTo_keeps (toInt_of_address? place hf.span_lt)
        (hf.kept_of_address? hslots place hdata)
  | ret =>
    cases hc
    exact hended _ hdata
  | label => cases hi
  | _ => exact plain.elim

/-- The next instruction of code in pieces, after the labels before it. -/
theorem Frame.Orderly.exists_instruction {low pc : Nat} {rest : List Instruction}
    (pieces : InPieces table low rest count) (here : StandsAt whole pc rest)
    (hc : f.code[pc]? = some c) :
    ∃ i rest, i.isLabel = false ∧ InPieces table low (i :: rest) count ∧
      StandsAt whole pc (i :: rest) := by
  induction pieces with
  | nil =>
    obtain ⟨before, hwhole, hpc⟩ := here
    rw [List.append_nil] at hwhole
    have hlt := (Array.getElem?_eq_some_iff.mp hc).1
    rw [hf.resolved.size_code, hwhole, hpc] at hlt
    exact absurd hlt (Nat.lt_irrefl _)
  | @plain _ _ i _ instruction rest ih =>
    cases hi : i.isLabel with
    | false => exact ⟨i, _, hi, .plain instruction rest, here⟩
    | true =>
      obtain ⟨l, rfl⟩ := eq_label_of_isLabel hi
      exact ih hf here.afterLabel
  | print printable rest => exact ⟨_, _, rfl, .print printable rest, here⟩
  | read reads rest => exact ⟨_, _, rfl, .read reads rest, here⟩

theorem Frame.Orderly.resolves_at {pc : Nat} {rest : List Instruction}
    (hc : f.code[pc]? = some c) (here : StandsAt whole pc (i :: rest)) (hi : i.isLabel = false) :
    Resolves (address? whole) m.constants i c := by
  obtain ⟨c', hc', hresolves⟩ := hf.resolved.code_at here hi
  exact Option.some.inj (hc.symm.trans hc') ▸ hresolves

/-- One instruction of code in pieces. -/
theorem State.Kept.execute (hs : s.Kept table ds.length count whole)
    (hc : f.code[s.pc]? = some c) :
    (s.execute m f c).Keeps (State.Kept table ds.length count whole)
      (State.InOrder f ds.length count) ds.length c := by
  have hslots := hs.slots
  have horder := hs.inOrder hf
  have hsize := hslots.size
  have hcount := hf.count_lt
  cases hs.stage with
  | between low_ge pieces here data =>
    obtain ⟨i, rest, hi, hpieces, hat⟩ := hf.exists_instruction pieces here hc
    have hresolves := hf.resolves_at hc hat hi
    cases hpieces with
    | plain instruction pieces =>
      exact State.execute_plain hf hslots data low_ge pieces hat hi instruction hresolves
    | print printable pieces =>
      cases hresolves
      exact State.push_keeps horder
        ⟨hslots, .printing ⟨printable, hat, _, low_ge, pieces⟩ rfl rfl data⟩
    | read reads pieces =>
      cases hresolves
      exact State.push_keeps horder
        ⟨hslots, .opened ⟨low_ge, reads, hat, pieces⟩ rfl rfl data⟩
  | printing piece pc_eq stack_eq data =>
    rw [pc_eq] at hc
    have hresolves := hf.resolves_at hc piece.value_at piece.printable.isLabel
    refine State.execute_printable hf hslots hresolves piece.printable horder fun v hv => ?_
    exact ⟨hslots, .printed piece (by simp only [pc_eq]) (by simp only [stack_eq]) data hv⟩
  | printed piece pc_eq stack_eq data datum =>
    rw [pc_eq] at hc
    cases hf.resolves_at hc piece.print_at rfl
    refine State.print_keeps stack_eq ⟨hslots, State.handlesInPlace_of_isData data⟩ fun output => ?_
    exact ⟨hslots, pc_eq ▸ piece.between data⟩
  | opened piece pc_eq stack_eq data =>
    have hlt := piece.slot_lt
    have hindex := State.slotIndex?_ofNat (hlt.trans_eq hsize.symm) (by omega)
    rw [pc_eq] at hc
    cases hf.resolves_at hc piece.store_at rfl
    simp only [State.execute, Code.opcode?, Opcode.ofByte?_byte, State.store, State.pop, stack_eq,
      hindex, Array.back?_push, Array.pop_push]
    refine ⟨hslots.set ?_, .stored piece (by simp only [pc_eq]) ?_ data⟩
    · rw [Value.Suits, if_neg (Nat.not_lt.mpr piece.slot_ge)]
      exact .inr rfl
    · simp [hsize, hlt]
  | @stored _ slot _ _ piece pc_eq kept data =>
    have hlt := piece.slot_lt
    have hindex := State.slotIndex?_ofNat (hlt.trans_eq hsize.symm) (by omega)
    have hget : s.slots.getD slot .null = .input := by simp [Array.getD_eq_getD_getElem?, kept]
    rw [pc_eq] at hc
    cases hf.resolves_at hc piece.load_at rfl
    simp only [State.execute, Code.opcode?, Opcode.ofByte?_byte, State.load, hindex, hget]
    exact State.push_keeps horder ⟨hslots, .fetched piece (by simp only [pc_eq]) rfl data⟩
  | @fetched _ _ _ _ below piece pc_eq stack_eq data =>
    have hended : ∀ input, State.InOrder f ds.length count { s with stack := below, input } :=
      fun _ => ⟨hslots, State.handlesInPlace_of_isData data⟩
    have hnext : ∀ (input : Input) (v : Value), v.isHandle = false →
        State.Kept table ds.length count whole
          { s with stack := below.push v, input, pc := s.pc + 1 } :=
      fun _ _ hv => ⟨hslots, pc_eq ▸ piece.between (data.push hv)⟩
    rw [pc_eq] at hc
    have hresolves := hf.resolves_at hc piece.reader_at piece.isLabel
    rcases piece.reads with rfl | rfl
    · cases hresolves
      exact State.read_keeps stack_eq hended fun input _ => hnext input _ rfl
    · cases hresolves
      exact State.read_keeps stack_eq hended fun input _ => hnext input _ rfl

end Step

/-! ## Runs -/

/-- How a run may end at `pc`. -/
def Outcome.ByData (f : Frame) (vars pc : Nat) : Outcome → Prop
  | .fault _ _ _ _ reason => ∃ c, f.code[pc]? = some c ∧ reason.ByData vars c
  | _ => True

section Outcome

variable {f : Frame} {vars pc : Nat} {outcome : Outcome}

/-- Only operations on integers find operands of the wrong type. -/
theorem Outcome.ByData.of_mismatch (h : outcome.ByData f vars pc)
    (hkind : outcome.kind? = some .typeMismatch) : ∃ c, f.code[pc]? = some c ∧
      c.opcode? ∈ [some .add, some .sub, some .mul, some .div, some .branch] := by
  cases outcome with
  | fault name routine address op reason =>
    obtain ⟨c, hc, hdata⟩ := h
    cases reason with
    | integers => exact ⟨c, hc, hdata⟩
    | printTo | readFrom => exact hdata.elim
    | _ => cases hkind
  | _ => cases hkind

/-- Only variables lack a value. -/
theorem Outcome.ByData.of_uninitialized (h : outcome.ByData f vars pc)
    (hkind : outcome.kind? = some .uninitialized) : ∃ c, f.code[pc]? = some c ∧
      c.opcode? = some .load ∧ 0 ≤ c.operand.toInt ∧ c.operand.toInt < vars := by
  cases outcome with
  | fault name routine address op reason =>
    obtain ⟨c, hc, hdata⟩ := h
    cases reason with
    | uninitialized => exact ⟨c, hc, hdata⟩
    | _ => cases hkind
  | _ => cases hkind

end Outcome

/-- What a run may have come to. -/
def Status.Kept (table : SymbolTable) (f : Frame) (vars count : Nat) (whole : List Instruction) :
    Status → Prop
  | .running s => s.Kept table vars count whole
  | .stopped outcome t => t.InOrder f vars count ∧ outcome.ByData f vars t.pc

section Run

variable {m : Module} {f : Frame} {table : SymbolTable} {ds : List Declaration} {count : Nat}
  {whole : List Instruction} (hf : f.Orderly m table ds count whole) (limits : Limits)
include hf

theorem Machine.turn_kept {s : State} (hs : s.Kept table ds.length count whole) :
    (Machine.turn m f limits s).Kept table f ds.length count whole := by
  have horder := hs.inOrder hf
  unfold Machine.turn
  cases hcode : f.code[s.pc]? with
  | none => exact ⟨horder, trivial⟩
  | some c =>
    dsimp only
    split_ifs
    · exact ⟨horder, trivial⟩
    · exact ⟨horder, trivial⟩
    · have hcounted : State.Kept table ds.length count whole { s with steps := s.steps + 1 } :=
        ⟨hs.slots, hs.stage⟩
      have hstep := hcounted.execute hf hcode
      have hlawful := State.execute_lawful m f c { s with steps := s.steps + 1 }
      revert hstep hlawful
      cases State.execute m f c { s with steps := s.steps + 1 } with
      | next t => exact fun hstep _ => hstep
      | done t => exact fun hstep _ => ⟨hstep, trivial⟩
      | fault reason t =>
        rintro ⟨hended, hdata⟩ ⟨_, hpc, _⟩
        exact ⟨hended, c, hpc ▸ hcode, hdata⟩
      | crash => exact fun _ _ => ⟨hcounted.inOrder hf, trivial⟩

/-- However long a run is, its handles are in order. -/
theorem Machine.advance_kept {s : State} (hs : s.Kept table ds.length count whole) (n : Nat) :
    (Machine.advance m f limits n (.running s)).Kept table f ds.length count whole :=
  Machine.advance_induction (fun _ h => Machine.turn_kept hf limits h) n hs

theorem Status.Kept.inOrder {status : Status}
    (h : status.Kept table f ds.length count whole) : status.state.InOrder f ds.length count := by
  cases status with
  | running s => exact State.Kept.inOrder hf h
  | stopped outcome s => exact h.1

end Run

/-! ## Programs -/

theorem Program.Lowered.orderly {p : Program} {c : Compiled} {code : List Instruction}
    {supply : Supply} {m : Module} {f : Frame} (h : p.Lowered c code supply m f)
    (hslots : c.slots < 2 ^ 31) (hcount : c.unit.instructionCount < 2 ^ 31) :
    f.Orderly m c.symbols p.declarations supply.slot (code ++ [.ret]) :=
  ⟨h.lists, h.inPieces, h.assembled.toResolved, h.instructionCount_eq ▸ hcount, h.slots ▸ hslots⟩

/-- A run starts before the first piece, with nothing in its slots. -/
theorem Frame.Orderly.kept_start {m : Module} {f : Frame} {table : SymbolTable}
    {ds : List Declaration} {count : Nat} {whole : List Instruction}
    (hf : f.Orderly m table ds count whole) (input : Input) (output : Output) :
    State.Kept table ds.length count whole
      { slots := Array.replicate count .null, input, output } := by
  refine ⟨⟨Array.size_replicate, fun i v hv => ?_⟩, .between (Nat.le_refl _) hf.pieces
    ⟨[], rfl, rfl⟩ fun j v hv => by simp at hv⟩
  rw [Array.getElem?_replicate] at hv
  split_ifs at hv
  obtain rfl := Option.some.inj hv
  unfold Value.Suits
  split_ifs
  · rfl
  · exact .inl rfl

/-- However long a program runs, with whatever input, output and limits, the slots
of its variables hold no handle, and those of its `READ`s nothing else, if
anything. Handles are among the operands only where the instruction that takes
them is about to come. So `PRINT` and the readers always find theirs, and a
`READ` the one it has stored: only the operations on integers can find operands of
the wrong type, and only variables can lack a value. -/
theorem Program.handles_stay_in_place {p : Program} {c : Compiled} (h : p.compile = .ok c)
    (hslots : c.slots < 2 ^ 31) (hcount : c.unit.instructionCount < 2 ^ 31) :
    ∃ m f, c.unit.assemble = .ok m ∧ ∀ (last : State) (limits : Limits),
      ∃ s, Machine.begin m last = .ok (f, s) ∧ ∀ n,
        (∀ i < p.declarations.length, ∃ v,
          (Machine.advance m f limits n (.running s)).state.slots[i]? = some v ∧
            v.isHandle = false) ∧
        (∀ k < p.reads, ∃ v,
          (Machine.advance m f limits n (.running s)).state.slots[p.declarations.length + k]?
            = some v ∧ (v = .null ∨ v = .input)) ∧
        (Machine.advance m f limits n (.running s)).state.HandlesInPlace f p.declarations.length ∧
        ∀ outcome t, Machine.advance m f limits n (.running s) = .stopped outcome t →
          (outcome.kind? = some .typeMismatch → ∃ i, f.code[t.pc]? = some i ∧
            i.opcode? ∈ [some .add, some .sub, some .mul, some .div, some .branch]) ∧
          (outcome.kind? = some .uninitialized → ∃ i, f.code[t.pc]? = some i ∧
            i.opcode? = some .load ∧ 0 ≤ i.operand.toInt ∧
            i.operand.toInt < p.declarations.length) := by
  obtain ⟨code, supply, m, f, hlow⟩ := exists_lowered h hcount
  have hf := hlow.orderly hslots hcount
  have hmax := hlow.maxLocals_eq hf.count_lt
  have hsound : Routine.IsSound (.main supply.slot code) :=
    compile_sound h (Nat.le_of_lt hslots) _ (by simp [hlow.unit])
  refine ⟨m, f, hlow.assemble, fun last limits => ?_⟩
  have hbegin := hlow.assembled.begin_eq_ok hlow.entry hsound hf.span_lt last
  rw [hmax, Int.toNat_natCast] at hbegin
  refine ⟨_, hbegin, fun n => ?_⟩
  have hkept := Machine.advance_kept hf limits (hf.kept_start last.input last.output) n
  have horder := hkept.inOrder hf
  have hle := hf.vars_le
  have hslot := hlow.slot_eq
  refine ⟨fun i hi => horder.slots.value hi (by omega),
    fun k hk => horder.slots.handle (Nat.le_add_right _ _) (by omega), horder.handles,
    fun outcome t hstop => ?_⟩
  rw [hstop] at hkept
  exact ⟨hkept.2.of_mismatch, hkept.2.of_uninitialized⟩

/-- Whatever is read, the handles of a program with `READ`s in all its parts stay
where they belong. -/
theorem Program.handles_stay_in_place_survey : ∃ c, survey.compile = .ok c ∧ c.slots < 2 ^ 31 ∧
    c.unit.instructionCount < 2 ^ 31 ∧ ∃ m f, c.unit.assemble = .ok m ∧
      ∃ s, Machine.begin m { input := .ofBytes (ascii "-1\n0\nend\n") } = .ok (f, s) ∧ ∀ n,
        (∀ i < 2, ∃ v, (Machine.advance m f {} n (.running s)).state.slots[i]? = some v ∧
          v.isHandle = false) ∧
        (∀ k < 4, ∃ v, (Machine.advance m f {} n (.running s)).state.slots[2 + k]? = some v ∧
          (v = .null ∨ v = .input)) ∧
        (Machine.advance m f {} n (.running s)).state.HandlesInPlace f 2 ∧
        ∀ outcome t, Machine.advance m f {} n (.running s) = .stopped outcome t →
          (outcome.kind? = some .typeMismatch → ∃ i, f.code[t.pc]? = some i ∧
            i.opcode? ∈ [some .add, some .sub, some .mul, some .div, some .branch]) ∧
          (outcome.kind? = some .uninitialized → ∃ i, f.code[t.pc]? = some i ∧
            i.opcode? = some .load ∧ 0 ≤ i.operand.toInt ∧ i.operand.toInt < 2) := by
  obtain ⟨c, hc, hslots, hcount⟩ := survey_compiles
  obtain ⟨m, f, hm, hruns⟩ := Program.handles_stay_in_place hc hslots hcount
  exact ⟨c, hc, hslots, hcount, m, f, hm, hruns _ _⟩

end Stackling
