import Mathlib.Algebra.Order.Group.Nat
import Mathlib.Tactic.Common
import Stackling.Proofs.Machine.Run
import Stackling.Proofs.Module.Loadable
import Stackling.Proofs.SoundUnit

/-!
# Loading what was read as text

A unit that was read as text assembly can be run as soon as it is assembled, or
be written as a module and run from there. Each way has a check of its own, and
the two do not ask for the same: assembling follows the paths of the code, and
loading looks at every instruction. They differ on code that no path reaches. A
jump there may go to a label after the last instruction: it is assembled, since no
path takes it, and it is refused by a loader, since it leaves the code
(`AsmUnit.dead_is_refused`). Apart from modules with more constants or addresses
than machine integers can number, nothing else is refused
(`AsmUnit.loads_iff_enclosed`).
-/

namespace Stackling

open Assemble StackDepth

/-- A jump that a path takes stays inside the code. -/
theorem Assemble.Assembled.inRange_of_path {pool : Pool} {r : Routine} {f : Frame}
    (h : Assembled pool r f) {pc depth : Nat} {c : Code} (hpath : Path f.code pc depth)
    (hc : f.code[pc]? = some c) (hjumps : c.Jumps) :
    Decode.inRange c.operand f.code.size = true := by
  obtain ⟨n, hn, _⟩ := h.depth
  obtain ⟨depths, hexplore⟩ := compute_eq_ok_iff.mp hn
  obtain ⟨hconsistent, _, _⟩ := explore_ok hexplore
  obtain ⟨pc', hpc, hdepth⟩ := hconsistent.depth_of_path hpath
  obtain rfl : pc = pc' := Int.ofNat.inj hpc
  obtain ⟨c', hc', _, _, hnext⟩ := hconsistent.agrees pc depth hdepth
  obtain rfl : c = c' := Option.some.inj (hc.symm.trans hc')
  have htarget : c.operand.toInt ∈ successors c pc := by
    rcases hjumps with hop | hop <;> simp [successors, hop]
  -- where the jump goes a depth was recorded, so there is an instruction
  obtain ⟨next, heq, hrecorded⟩ := hnext _ htarget
  obtain ⟨_, hat, _⟩ := hconsistent.agrees next _ hrecorded
  have hlt := (Array.getElem?_eq_some_iff.mp hat).1
  rw [Decode.inRange_iff, heq]
  omega

namespace AsmUnit

/-- What was read as text assembly and assembled is written without a refusal, if
its sizes fit their fields. From what was written the module is read again if its
constants can be numbered and its jumps stay inside the code; otherwise it is
refused as a bad module. The jumps that a path takes do stay inside. -/
theorem loads_iff_enclosed {input : Input} {unit : AsmUnit} {m : Module}
    (hread : Assembly.read input = .ok unit) (hm : unit.assemble = .ok m) (hsized : m.Sized)
    (output : Output) (hlimit : output.limit = none) :
    (∃ bytes, m.encode output = (output.append bytes, none) ∧
      (Module.decode (.ofBytes bytes) = .ok m ↔
        m.constants.size ≤ 2 ^ 31 ∧ ∀ r ∈ unit.routines, Enclosed r.code) ∧
      (Module.decode (.ofBytes bytes) = .ok m ∨
        ∃ e, Module.decode (.ofBytes bytes) = .error e ∧ e.kind = .badModule)) ∧
    ∀ f ∈ m.routines, ∀ (pc depth : Nat) (c : Code), Path f.code pc depth →
      f.code[pc]? = some c → c.Jumps → Decode.inRange c.operand f.code.size = true := by
  obtain ⟨_, _, hall, entry, hentry⟩ := assemble_spec hm
  refine ⟨?_, ?_⟩
  · have hmeaningful : ∀ r ∈ unit.routines, ∀ i ∈ r.code, i.isMeaningful = true :=
      fun r hr => (Assembly.read_spec hread r hr).2
    have hencode := Module.encode_of_sized hsized hlimit
    obtain ⟨bytes, houtput, hdecode⟩ :=
      Module.decode_of_encode hencode hsized (clear_of_assemble hm)
    refine ⟨bytes, by rw [hencode, houtput], ?_⟩
    rw [← defect?_eq_none_iff hm hsized hmeaningful, hdecode]
    cases hdefect : m.defect? with
    | none => exact ⟨iff_of_true rfl rfl, .inl rfl⟩
    | some defect =>
      refine ⟨iff_of_false ?_ ?_, .inr ⟨_, rfl, Module.kind_of_defect? hentry hdefect⟩⟩
      · intro h
        cases h
      · intro h
        cases h
  · intro f hf pc depth c hpath hc hjumps
    obtain ⟨r, _, hasm⟩ := exists_left_of_mem hall hf
    exact hasm.inRange_of_path hpath hc hjumps

/-- Text assembly with code that no path reaches, a jump in it, and a label after
the last instruction. -/
def spare : Bytes :=
  ascii "UNIT spare\nROUTINE main 0\nRETURN\nGOTO again\nLABEL again\nRETURN\nLABEL end\n"

def spareUnit : AsmUnit where
  name := ascii "spare"
  routines :=
    [{ name := entryName
       locals := 0
       code := [.ret, .jump (ascii "again"), .label (ascii "again"), .ret,
         .label (ascii "end")] }]

def spareModule : Module where
  name := ascii "spare"
  constants := #[]
  routines :=
    [{ name := entryName
       maxStack := 0
       maxLocals := 0
       code := #[{ op := Opcode.ret.byte }, { op := Opcode.jump.byte, operand := 2 },
         { op := Opcode.ret.byte }] }]

theorem loads_iff_enclosed_spare : Assembly.read (.ofBytes spare) = .ok spareUnit ∧
    spareUnit.assemble = .ok spareModule ∧ spareModule.Sized ∧
    ∃ bytes, spareModule.encode {} = (Output.append {} bytes, none) ∧
      Module.decode (.ofBytes bytes) = .ok spareModule := by
  have hread : Assembly.read (.ofBytes spare) = .ok spareUnit := by decide +kernel
  have hassemble : spareUnit.assemble = .ok spareModule := by decide +kernel
  have hsized : spareModule.Sized := by
    refine ⟨by decide, by decide, by decide, by decide, ?_⟩
    intro f hf
    obtain rfl := List.mem_singleton.mp hf
    exact ⟨by decide, by decide, by decide, by decide, by decide, by decide⟩
  have henclosed : ∀ r ∈ spareUnit.routines, Enclosed r.code := by
    intro r hr l hl a ha
    obtain rfl := List.mem_singleton.mp hr
    obtain rfl := List.mem_singleton.mp hl
    have hplace : address? [.ret, .jump (ascii "again"), .label (ascii "again"), .ret,
        .label (ascii "end")] (ascii "again") = some 2 := by
      decide
    rw [hplace] at ha
    obtain rfl := Option.some.inj ha
    decide
  obtain ⟨⟨bytes, hencode, hloads, _⟩, _⟩ := loads_iff_enclosed hread hassemble hsized {} rfl
  exact ⟨hread, hassemble, hsized, bytes, hencode, hloads.mpr ⟨by decide, henclosed⟩⟩

/-- Text assembly in which a jump that no path reaches goes to the label after the
last instruction. -/
def dead : Bytes := ascii "UNIT dead\nROUTINE main 0\nRETURN\nGOTO end\nLABEL end\n"

def deadMain : Frame where
  name := entryName
  maxStack := 0
  maxLocals := 0
  code := #[{ op := Opcode.ret.byte }, { op := Opcode.jump.byte, operand := 2 }]

def deadModule : Module where
  name := ascii "dead"
  constants := #[]
  routines := [deadMain]

/-- Not all that is assembled can be loaded: this unit returns when it is run, and is
refused when it was written before. -/
theorem dead_is_refused : ∃ unit, Assembly.read (.ofBytes dead) = .ok unit ∧
    unit.assemble = .ok deadModule ∧ deadModule.Sized ∧
    Machine.begin deadModule {} = .ok (deadMain, {}) ∧
    Machine.advance deadModule deadMain {} 1 (.running {}) = .stopped .returned { steps := 1 } ∧
    ∃ bytes, deadModule.encode {} = (Output.append {} bytes, none) ∧
      Module.decode (.ofBytes bytes) = .error (.invalid (.target entryName 2)) := by
  have hsized : deadModule.Sized := by
    refine ⟨by decide, by decide, by decide, by decide, ?_⟩
    intro f hf
    obtain rfl := List.mem_singleton.mp hf
    exact ⟨by decide, by decide, by decide, by decide, by decide, by decide⟩
  have hread : Assembly.read (.ofBytes dead) = .ok
      { name := ascii "dead"
        routines := [{ name := entryName, locals := 0
                       code := [.ret, .jump (ascii "end"), .label (ascii "end")] }] } := by
    decide +kernel
  have hencode : deadModule.encode {} = _ := Module.encode_of_sized hsized rfl
  have hclear : deadModule.clear = deadModule := by decide +kernel
  have hdefect : deadModule.defect? = some (.target entryName 2) := by decide +kernel
  obtain ⟨bytes, houtput, hdecode⟩ := Module.decode_of_encode hencode hsized hclear
  rw [hdefect] at hdecode
  exact ⟨_, hread, by decide +kernel, hsized, rfl, by decide +kernel, bytes,
    hencode.trans (by rw [houtput]), hdecode⟩

end AsmUnit

end Stackling
