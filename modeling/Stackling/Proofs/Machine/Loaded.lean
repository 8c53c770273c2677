import Mathlib.Tactic.Common
import Stackling.Proofs.Machine.Run
import Stackling.Proofs.Module.Checked
import Stackling.Proofs.Module.Spelling

/-!
# Loaded modules run safely

A loader looks at each instruction by itself: it follows no path and counts no
operands, so nothing is known of what the code does. This is enough for every
state of a run to stay within the bounds of its frame:

* **step** — an instruction that was checked has no reason to break the machine
  down or to be refused, and leaves the routine only if it is a return
  (`Code.Checked.due`, `Frame.Checked.ret_of_returned`);
* **run** — so it is for any number of turns (`Frame.Checked.advance_bounded`);
* **load** — and every module that is decoded can be run so
  (`Module.runs_of_decode`).

Operands may still be missing, be too many or be of the wrong kind, and control
may run over the end of the code: these are found when they happen.
-/

namespace Stackling

/-- The kinds of errors that tell of a module that should not have been loaded, or
of a machine that broke down. -/
def ErrorKind.isRefusal : ErrorKind → Bool
  | badModule | badOpcode | noEntry | panic => true
  | _ => false

/-- A state of which each part is within the bounds of a frame. -/
structure State.Bounded (f : Frame) (s : State) : Prop where
  pc : s.pc ≤ f.code.size
  stack : (s.stack.size : Int) ≤ f.maxStack
  slots : (s.slots.size : Int) = f.maxLocals

/-- A run that is within the bounds of a frame, and has not been ended by a
refusal. -/
def Status.Bounded (f : Frame) : Status → Prop
  | .running s => s.Bounded f
  | .stopped outcome s => s.Bounded f ∧ ∀ kind, outcome.kind? = some kind → kind.isRefusal = false

/-! ## One instruction -/

section Step

variable {m : Module} {f : Frame} {c : Code} {s t : State}

theorem State.Moved.bounded (h : s.Moved f t) (hs : s.Bounded f) (hpc : t.pc ≤ f.code.size) :
    t.Bounded f := by
  have hstack := h.stack
  have hbound := hs.stack
  refine ⟨hpc, by omega, ?_⟩
  rw [h.slots]
  exact hs.slots

/-- What a checked instruction runs into is not its own fault. -/
theorem Code.Checked.due (hc : c.Checked m f) (hs : s.Bounded f) {reason : Fault}
    (h : reason.Due m c s) : reason.kind.isRefusal = false := by
  cases reason with
  | constant index =>
    obtain ⟨hop, hle⟩ := h
    have hrange := Decode.inRange_iff.mp (hc.constant hop)
    omega
  | slotRange slot =>
    obtain ⟨hop, hout⟩ := h
    have hrange := Decode.inRange_iff.mp (hc.slot hop)
    rw [← hs.slots] at hrange
    exact absurd hrange hout
  | opcode op =>
    obtain ⟨op, hop, hlabel⟩ := hc.known
    exact absurd (h op hop) hlabel
  | _ => rfl

/-- A checked instruction goes on within the code. -/
theorem Code.Checked.target_lt (hc : c.Checked m f) (h : c.Jumps) :
    0 ≤ c.operand.toInt ∧ c.operand.toInt < f.code.size :=
  Decode.inRange_iff.mp (hc.target h)

end Step

/-! ## Runs -/

section Run

variable {m : Module} {f : Frame} {limits : Limits} {s t : State} {status : Status}

theorem Frame.Checked.code_checked (hf : f.Checked m) {pc : Nat} {c : Code}
    (hcode : f.code[pc]? = some c) : c.Checked m f ∧ pc < f.code.size :=
  ⟨hf c (Array.mem_of_getElem? hcode), (Array.getElem?_eq_some_iff.mp hcode).1⟩

theorem Frame.Checked.turned_bounded (hf : f.Checked m) (hs : s.Bounded f)
    (h : Machine.Turned m f limits s status) : status.Bounded f := by
  have hcounted : s.counted.Bounded f := ⟨hs.pc, hs.stack, hs.slots⟩
  -- a run that stops before an instruction stays where it is
  cases h with
  | leftCode | stepLimit | canceled =>
    refine ⟨hs, ?_⟩
    intro kind hkind
    cases hkind
    rfl
  | @next c t hcode _ h =>
    obtain ⟨hmoved, hpc⟩ := h
    obtain ⟨hc, hlt⟩ := hf.code_checked hcode
    refine hmoved.bounded hcounted ?_
    rcases hpc with hpc | ⟨hjumps, hpc⟩
    · rw [hpc]
      exact hlt
    · have htarget := hc.target_lt hjumps
      omega
  | done hcode h =>
    obtain ⟨hmoved, hpc, _⟩ := h
    refine ⟨hmoved.bounded hcounted (hpc ▸ hs.pc), ?_⟩
    intro kind hkind
    cases hkind
  | fault hcode h =>
    obtain ⟨hmoved, hpc, hdue⟩ := h
    obtain ⟨hc, _⟩ := hf.code_checked hcode
    refine ⟨hmoved.bounded hcounted (hpc ▸ hs.pc), ?_⟩
    intro kind hkind
    cases hkind
    exact hc.due hcounted hdue
  | crash hcode h =>
    obtain ⟨hop, hneg⟩ := h
    obtain ⟨hc, _⟩ := hf.code_checked hcode
    have hrange := Decode.inRange_iff.mp (hc.constant hop)
    omega

/-- However long a run of a checked frame is, it stays within the frame. -/
theorem Frame.Checked.advance_bounded (hf : f.Checked m) (limits : Limits) (n : Nat)
    (h : status.Bounded f) : (Machine.advance m f limits n status).Bounded f :=
  Machine.advance_induction (fun s hs => hf.turned_bounded hs (Machine.turned m f limits s)) n h

/-- Only a return ends a run of a checked frame without an error. -/
theorem Frame.Checked.ret_of_returned (hf : f.Checked m)
    (h : Machine.turn m f limits s = .stopped .returned t) :
    ∃ c, f.code[s.pc]? = some c ∧ c.opcode? = some .ret := by
  have hturned := Machine.turned m f limits s
  rw [h] at hturned
  cases hturned with
  | @done c _ hcode hstep =>
    obtain ⟨_, _, hret | ⟨hjumps, hneg⟩⟩ := hstep
    · exact ⟨c, hcode, hret⟩
    · have htarget := (hf.code_checked hcode).1.target_lt hjumps
      omega

end Run

/-! ## Loaded modules -/

namespace Module

variable {m : Module}

/-- The frames of a module that was read ask for no more than a machine has. -/
theorem Sized.begin_ok (h : m.Sized) {f : Frame} (hentry : m.entry? = some f) (last : State) :
    ∃ s, Machine.begin m last = .ok (f, s) ∧ s.Bounded f := by
  have hf := h.routine f (List.mem_of_find?_eq_some hentry)
  have hroom : ∀ count : Int, 0 ≤ count → count ≤ 65535 → Machine.hasRoom count = true := by
    intro count hnonneg hle
    unfold Machine.hasRoom Machine.room
    simp only [Bool.and_eq_true, decide_eq_true_eq]
    omega
  refine ⟨_, Machine.begin_eq_ok_iff.mpr ⟨hentry, ⟨?_, ?_⟩, rfl⟩, Nat.zero_le _, ?_, ?_⟩
  · exact hroom _ hf.maxStack_nonneg hf.maxStack_le
  · exact hroom _ hf.maxLocals_nonneg hf.maxLocals_le
  · exact hf.maxStack_nonneg
  · have hnonneg := hf.maxLocals_nonneg
    simp only [Array.size_replicate]
    omega

/-- A module that was decoded can be run, again and again and on any input, output
and limits. All the way the run is within the bounds of its frame and is never ended
by a refusal; and if it ends without an error, the last instruction was a return. -/
theorem runs_of_decode {input : Input} (h : decode input = .ok m) (last : State)
    (limits : Limits) :
    ∃ f s, Machine.begin m last = .ok (f, s) ∧
      (∀ n, (Machine.advance m f limits n (.running s)).Bounded f) ∧
      ∀ n t, Machine.advance m f limits n (.running s) = .stopped .returned t →
        ∃ k u c, k < n ∧ Machine.advance m f limits k (.running s) = .running u ∧
          f.code[u.pc]? = some c ∧ c.opcode? = some .ret ∧
          Machine.turn m f limits u = .stopped .returned t := by
  obtain ⟨hdefect, _, _, hspelled, _⟩ := spelled_of_decode h
  obtain ⟨⟨f, hentry⟩, hchecked⟩ := defect?_eq_none_iff.mp hdefect
  have hf := hchecked f (List.mem_of_find?_eq_some hentry)
  obtain ⟨s, hbegin, hs⟩ := hspelled.1.begin_ok hentry last
  refine ⟨f, s, hbegin, fun n => hf.advance_bounded limits n hs, ?_⟩
  intro n t hstop
  obtain ⟨k, u, hk, hrun, hturn⟩ := Machine.exists_turn_of_stopped hstop
  obtain ⟨c, hc, hret⟩ := hf.ret_of_returned hturn
  exact ⟨k, u, c, hk, hrun, hc, hret, hturn⟩

/-- A routine that returns if it reads a zero, and else pushes for ever. -/
def greedyMain : Frame where
  name := entryName
  maxStack := 2
  maxLocals := 0
  code :=
    #[{ op := Opcode.openInput.byte }, { op := Opcode.readInt.byte }, { op := Opcode.pushInt.byte },
      { op := Opcode.branch.byte, relation := .eq, operand := 6 }, { op := Opcode.pushInt.byte },
      { op := Opcode.jump.byte, operand := 4 }, { op := Opcode.ret.byte }]

def greedy : Module where
  name := ascii "greedy"
  constants := #[]
  routines := [greedyMain]

theorem runs_of_decode_greedy :
    decode (.ofBytes (greedy.encode {}).1.bytes) = .ok greedy ∧
    (∃ s t u c, Machine.begin greedy { input := .ofBytes (ascii "0") } = .ok (greedyMain, s) ∧
      Machine.advance greedy greedyMain {} 5 (.running s) = .stopped .returned t ∧
      Machine.turn greedy greedyMain {} u = .stopped .returned t ∧
      greedyMain.code[u.pc]? = some c ∧ c.opcode? = some .ret) ∧
    ∃ s t outcome, Machine.begin greedy { input := .ofBytes (ascii "1") } = .ok (greedyMain, s) ∧
      Machine.advance greedy greedyMain {} 9 (.running s) = .stopped outcome t ∧
      outcome.kind? = some .stackOverflow ∧ t.Bounded greedyMain := by
  have hread : decode (.ofBytes (greedy.encode {}).1.bytes) = .ok greedy := by decide +kernel
  refine ⟨hread, ?_, ?_⟩
  · obtain ⟨_, _, hbegin, _, hret⟩ := runs_of_decode hread { input := .ofBytes (ascii "0") } {}
    cases hbegin
    have hstop : Machine.advance greedy greedyMain {} 5
        (.running { input := .ofBytes (ascii "0") })
          = .stopped .returned { pc := 6, steps := 5 } := by
      decide +kernel
    obtain ⟨_, u, c, _, _, hc, hop, hturn⟩ := hret 5 _ hstop
    exact ⟨_, _, u, c, rfl, hstop, hturn, hc, hop⟩
  · obtain ⟨_, _, hbegin, hbounded, _⟩ := runs_of_decode hread { input := .ofBytes (ascii "1") } {}
    cases hbegin
    have hstop : Machine.advance greedy greedyMain {} 9
        (.running { input := .ofBytes (ascii "1") })
          = .stopped (.fault (ascii "greedy") entryName 4 Opcode.pushInt.byte (.overflow 2))
              { pc := 4, steps := 9, stack := #[.int 0, .int 0] } := by
      decide +kernel
    have hlast : (Machine.advance greedy greedyMain {} 9
        (.running { input := .ofBytes (ascii "1") })).Bounded greedyMain := hbounded 9
    rw [hstop] at hlast
    exact ⟨_, _, _, rfl, hstop, rfl, hlast.1⟩

end Module

end Stackling
