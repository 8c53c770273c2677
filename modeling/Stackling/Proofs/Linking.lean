import Mathlib.Algebra.Group.Int.Defs
import Mathlib.Tactic.Common
import Stackling.Proofs.Direct
import Stackling.Proofs.Machine.Safety

/-!
# Assembling preserves behaviour

Removing labels moves every instruction to another address, and pooling texts
puts a place where a text was. Neither can be seen from outside: a run of an
assembled unit has, turn by turn, the operands, slots, output and unread input
of a direct execution of its entry routine, counts the same steps, and ends in
the same way (`AsmUnit.assemble_runs`).

One thing can be seen: a run sets aside room for all its slots before it starts.
A routine may ask for more slots than memory has room for, and then there is no
run at all (`AsmUnit.vast_breaks_down`).
-/

namespace Stackling

open Assemble StackDepth

/-! ## What can be seen -/

namespace Direct

/-- The start of an execution of code on the given number of slots. -/
def Config.start (code : List Instruction) (slots : Nat) (input : Input) (output : Output) :
    Config :=
  { rest := skip code, slots := Array.replicate slots .null, input, output }

/-- A machine state with the operands, slots, input and output of a configuration. -/
structure Config.SameAs (c : Config) (s : State) : Prop where
  stack : s.stack.toList = c.stack.reverse
  slots : s.slots = c.slots
  input : s.input = c.input
  output : s.output = c.output

/-- A run that stands where an execution of so many instructions does. -/
def Status.SameAs (executed : Nat) : Status → Stackling.Status → Prop
  | .running c, .running s => c.SameAs s ∧ s.steps = executed
  | .stopped kind? c, .stopped outcome s =>
    c.SameAs s ∧ s.steps = executed ∧ outcome.kind? = kind?
  | _, _ => False

theorem Config.sameAs_machine (c : Config) (pc steps : Nat) : c.SameAs (c.machine pc steps) :=
  ⟨by simp [machine], rfl, rfl, rfl⟩

theorem Synced.sameAs {code : List Instruction} {depths : Array (Option Nat)} {steps : Nat}
    {here : Status} {there : Stackling.Status} (h : Synced code depths steps here there) :
    here.SameAs steps there := by
  cases here with
  | running c =>
    cases there with
    | running s =>
      obtain ⟨pc, _, rfl⟩ := h
      exact ⟨c.sameAs_machine pc steps, rfl⟩
    | stopped outcome s => exact h.elim
  | stopped kind? c =>
    cases there with
    | running s => exact h.elim
    | stopped outcome s =>
      obtain ⟨hkind, pc, rfl⟩ := h
      exact ⟨c.sameAs_machine pc steps, rfl, hkind⟩

end Direct

/-- A run of the module starts in the frame, and however many turns are taken, it
stands where the execution of the routine's own code does. -/
def Routine.RunsAs (r : Routine) (m : Module) (f : Frame) (last : State) : Prop :=
  ∃ s, Machine.begin m last = .ok (f, s) ∧
    ∀ n, (Direct.advance r.code n (.running (.start r.code f.maxLocals.toNat last.input
        last.output))).SameAs
      (Direct.executed r.code n (.running (.start r.code f.maxLocals.toNat last.input last.output)))
      (Machine.advance m f {} n (.running s))

/-! ## Routines -/

section Routine

variable {m : Module} {r : Routine} {f : Frame}

theorem Assemble.Assembled.runsAs (h : Assembled m.constants r f) (hentry : m.entry? = some f)
    (hspan : span r.code < 2 ^ 31) (hconstants : m.constants.size ≤ 2 ^ 31)
    (hnonneg : 0 ≤ f.maxLocals) (hroom : f.maxLocals ≤ Machine.room) (last : State) :
    r.RunsAs m f last := by
  obtain ⟨n, hn, hmax⟩ := h.depth
  obtain ⟨depths, hexplore⟩ := compute_eq_ok_iff.mp hn
  obtain ⟨hconsistent, _, _⟩ := explore_ok hexplore
  have hslots : Machine.hasRoom f.maxLocals = true := by
    simp [Machine.hasRoom, hnonneg, hroom]
  refine ⟨_, by rw [h.begin_eq hentry hspan, if_pos hslots], ?_⟩
  intro turns
  -- both start before the first instruction, with nothing on the stack
  have hstart : Direct.Synced r.code depths 0
      (.running (.start r.code f.maxLocals.toNat last.input last.output))
      (.running { slots := Array.replicate f.maxLocals.toNat .null, input := last.input,
                  output := last.output }) :=
    ⟨0, .of_split [] rfl rfl hconsistent.start, rfl⟩
  have hsynced := Direct.advance_synced h.toResolved hconsistent hmax hspan hconstants turns hstart
  rw [Nat.zero_add] at hsynced
  exact hsynced.sameAs

/-- The first routine of a name gives the first frame of that name. -/
theorem Assemble.find?_of_assembled {pool : Pool} {rs : List Routine} {fs : List Frame}
    (h : List.Forall₂ (Assembled pool) rs fs) {name : Bytes} {f : Frame}
    (hf : (fs.find? fun f => f.name == name) = some f) :
    ∃ r, (rs.find? fun r => r.name == name) = some r ∧ Assembled pool r f := by
  induction h with
  | nil => cases hf
  | @cons r f' rs fs hone _ ih =>
    -- a frame has the name of its routine, so both are looked at or passed over
    have hsame : (r.name == name) = (f'.name == name) := by rw [hone.name]
    cases hname : f'.name == name with
    | true =>
      simp only [List.find?_cons, hname] at hf
      obtain rfl := Option.some.inj hf
      exact ⟨r, by simp only [List.find?_cons, hsame, hname], hone⟩
    | false =>
      simp only [List.find?_cons, hname] at hf
      simp only [List.find?_cons, hsame, hname]
      exact ih hf

end Routine

/-! ## Units -/

namespace AsmUnit

/-- The routine that a machine starts with. -/
def entry? (unit : AsmUnit) : Option Routine := unit.routines.find? fun r => r.name == entryName

/-- Assembling preserves behaviour. Each frame has one entry for every instruction
of its routine that is no label, in order; and if memory has room for the slots
of the entry routine, a run of the module goes as its direct execution. -/
theorem assemble_runs {unit : AsmUnit} {m : Module} (hm : unit.assemble = .ok m)
    (hcount : unit.instructionCount < 2 ^ 31) (hlocals : ∀ r ∈ unit.routines, 0 ≤ r.locals) :
    List.Forall₂ (fun r f => f.name = r.name ∧ Resolved m.constants r.code f.code)
      unit.routines m.routines ∧
    ∃ r f, unit.entry? = some r ∧ m.entry? = some f ∧
      (f.maxLocals ≤ Machine.room → ∀ last, r.RunsAs m f last) := by
  obtain ⟨_, hconstants, hall, f, hentry⟩ := assemble_spec hm
  refine ⟨hall.imp fun _ _ h => ⟨h.name, h.toResolved⟩, ?_⟩
  obtain ⟨r, hr, hasm⟩ := find?_of_assembled hall hentry
  have hmem : r ∈ unit.routines := List.mem_of_find?_eq_some hr
  have hspan : span r.code < 2 ^ 31 := Nat.lt_of_le_of_lt (span_le_instructionCount hmem) hcount
  have hnonneg : 0 ≤ f.maxLocals := by
    rw [hasm.maxLocals]
    exact Int.le_trans (hlocals r hmem) (locals_le_slots r)
  refine ⟨r, f, hr, hentry, ?_⟩
  intro hroom last
  exact hasm.runsAs hentry hspan (by omega) hnonneg hroom last

/-- Two routines with a text and a label in common. Labels stand in a row, and
after the last instruction. -/
def labelled : AsmUnit where
  name := ascii "labelled"
  routines :=
    [{ name := ascii "other"
       locals := 0
       code :=
        [.jump (ascii "again"), .label (ascii "again"), .openOutput, .pushText (ascii "hi"),
          .print .ref, .ret, .label (ascii "end")] },
      { name := entryName
        locals := 0
        code :=
         [.pushInt 2, .store .int 3, .label (ascii "loop"), .label (ascii "again"),
           .load .int 3, .pushInt 0, .branch .eq (ascii "done"), .openOutput,
           .pushText (ascii "hi"), .print .ref, .load .int 3, .pushInt 1, .arith .sub,
           .store .int 3, .jump (ascii "again"), .label (ascii "done"), .ret,
           .label (ascii "end")] }]

theorem assemble_runs_labelled : ∃ m r f, labelled.assemble = .ok m ∧
    labelled.instructionCount < 2 ^ 31 ∧ (∀ r ∈ labelled.routines, 0 ≤ r.locals) ∧
    labelled.entry? = some r ∧ m.entry? = some f ∧ f.maxLocals ≤ Machine.room ∧
    r.RunsAs m f { input := .ofBytes [] } := by
  have hok : labelled.assemble.isOk = true := by decide +kernel
  have hlocals : ∀ r ∈ labelled.routines, 0 ≤ r.locals := by decide
  have hroom : (match labelled.assemble with
      | .ok m => m.entry?.all fun f => decide (f.maxLocals ≤ (Machine.room : Int))
      | .error _ => false) = true := by
    decide +kernel
  cases hm : labelled.assemble with
  | error e => simp [hm, Except.isOk, Except.toBool] at hok
  | ok m =>
    obtain ⟨_, r, f, hr, hf, hruns⟩ := AsmUnit.assemble_runs hm (by decide) hlocals
    rw [hm] at hroom
    have hle : f.maxLocals ≤ Machine.room := by simpa [hf] using hroom
    exact ⟨m, r, f, rfl, by decide, hlocals, hr, hf, hle, hruns hle _⟩

/-- A routine that asks for more slots than memory has room for, and returns. -/
def vast : AsmUnit where
  name := ascii "vast"
  routines := [{ name := entryName, locals := 0x4000000000000000, code := [.ret] }]

/-- Room for the slots is no matter of course: executed directly, the routine
returns at once, but there is no run of it. -/
theorem vast_breaks_down : vast.instructionCount < 2 ^ 31 ∧
    (∀ r ∈ vast.routines, 0 ≤ r.locals) ∧ ∃ m r f, vast.assemble = .ok m ∧
      vast.entry? = some r ∧ m.entry? = some f ∧
      Direct.advance r.code 1 (.running (.start r.code f.maxLocals.toNat (.ofBytes []) {}))
        = .stopped none (.start [] f.maxLocals.toNat (.ofBytes []) {}) ∧
      Machine.begin m {} = .error .crashed ∧ ¬r.RunsAs m f {} := by
  have hbegin : Machine.begin
      { name := ascii "vast", constants := #[]
        routines := [{ name := entryName, maxStack := 0, maxLocals := 0x4000000000000000
                       code := #[{ op := Opcode.ret.byte }] }] } {} = .error .crashed := by
    rfl
  refine ⟨by decide, by decide, _, _, _, ?_, rfl, rfl, rfl, hbegin, ?_⟩
  · decide +kernel
  · rintro ⟨s, hs, _⟩
    rw [hbegin] at hs
    cases hs

end AsmUnit

end Stackling
