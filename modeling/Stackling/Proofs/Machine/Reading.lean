import Mathlib.Data.List.Forall2
import Mathlib.Tactic.Common
import Stackling.Proofs.Machine.Ports
import Stackling.Proofs.Machine.Scan

/-!
# Input is read from left to right

Nothing but a read moves a machine forward in its input, and a read takes bytes
from the front of what is left. So the input of a machine is what all its reads
took, one after the other, and what is left at the end:

* **step** — every other instruction leaves the input as it is
  (`State.execute_keepsInput`), and a read takes what its instruction looks for
  (`State.execute_reads`);
* **turn**, **run** — so it is for a turn (`Machine.turn_consumes`) and for any
  number of them (`Machine.advance_consumes`);
* **session** — and for any number of runs of one machine
  (`Session.reads_in_order`).
-/

namespace Stackling

/-! ## Reads -/

/-- Whether an instruction reads. -/
def Opcode.reads : Opcode → Bool
  | .readInt | .readLine => true
  | _ => false

/-- The operation of an instruction, if it reads. -/
def Code.reads? (c : Code) : Option Opcode := c.opcode?.filter Opcode.reads

/-- The bytes that an instruction takes from the input to read a value, and the
input after them. -/
def Opcode.Yields : Opcode → Bytes → Input → Value → Prop
  | .readInt, segment, after, .int n => Scan.IsInteger segment after n
  | .readLine, segment, after, .text text => Scan.IsLine segment after text
  | _, _, _, _ => False

/-- An input starts with what an instruction looks for. -/
def Opcode.Finds (op : Opcode) (input : Input) : Prop :=
  ∃ segment rest v, input.unread = segment ++ rest ∧
    op.Yields segment { input with unread := rest } v

/-- A read that was executed. -/
structure Read where
  op : Opcode
  before : State
  after : State
  /-- Whether the run goes on after it. -/
  ok : Bool

/-- A read took these bytes from the input. It succeeds if it has a handle and
finds what it looks for; then the value it found takes the place of the handle. -/
structure Read.Takes (r : Read) (segment : Bytes) : Prop where
  consumed : r.before.input.unread = segment ++ r.after.input.unread
  ok_iff : r.ok = true ↔ r.before.stack.back? = some .input ∧ r.op.Finds r.before.input
  yields : r.ok = true → ∃ v, r.op.Yields segment r.after.input v ∧
    r.after.stack = r.before.stack.pop.push v

/-- Reads lead through an input, each of them on from where the one before it
stopped. -/
def Consumes (reads : List Read) (unread rest : Bytes) : Prop :=
  ∃ segments, List.Forall₂ Read.Takes reads segments ∧ segments.flatten ++ rest = unread

theorem Consumes.nil (unread : Bytes) : Consumes [] unread unread := ⟨[], .nil, rfl⟩

theorem Consumes.append {first second : List Read} {unread middle rest : Bytes}
    (h : Consumes first unread middle) (h' : Consumes second middle rest) :
    Consumes (first ++ second) unread rest := by
  obtain ⟨segments, htakes, rfl⟩ := h
  obtain ⟨segments', htakes', rfl⟩ := h'
  refine ⟨segments ++ segments', List.rel_append htakes htakes', ?_⟩
  rw [List.flatten_append, List.append_assoc]

theorem Read.Takes.consumes {r : Read} {segment : Bytes} (h : r.Takes segment) :
    Consumes [r] r.before.input.unread r.after.input.unread := by
  refine ⟨[segment], .cons h .nil, ?_⟩
  rw [List.flatten_singleton]
  exact h.consumed.symm

/-! ## One instruction -/

/-- A step that has not read. -/
def Step.KeepsInput (s : State) : Step → Prop
  | .next t | .done t | .fault _ t => t.input = s.input
  | .crash => True

theorem Step.KeepsPorts.keepsInput {s : State} {step : Step} (h : step.KeepsPorts s) :
    step.KeepsInput s := by
  cases step with
  | next | done | fault => exact h.1
  | crash => trivial

/-- A step that is a read. -/
def Step.Reads (op : Opcode) (s : State) : Step → Prop
  | .next t => ∃ segment, Read.Takes ⟨op, s, t, true⟩ segment
  | .fault _ t => ∃ segment, Read.Takes ⟨op, s, t, false⟩ segment
  | .done _ | .crash => False

namespace State

variable {m : Module} {f : Frame} {c : Code} {s : State}

theorem print_keepsInput : s.print.KeepsInput s := by
  simp only [print, State.pop]
  cases s.stack.back? with
  | none => rfl
  | some v =>
    dsimp only
    cases s.stack.pop.back? with
    | none => rfl
    | some handle =>
      cases handle with
      | output =>
        dsimp only
        split <;> rfl
      | _ => rfl

/-- An instruction that does not read leaves the input as it is. -/
theorem execute_keepsInput (h : c.reads? = none) : (s.execute m f c).KeepsInput s := by
  by_cases hprint : c.opcode? = some .print
  · simp only [execute, hprint]
    exact print_keepsInput
  · refine (execute_keepsPorts fun op hop => ?_).keepsInput
    have hreads := Option.filter_eq_none_iff.mp h op hop
    cases op with
    | print => exact absurd hop hprint
    | readInt | readLine => exact absurd rfl hreads
    | _ => rfl

/-- The value that was read takes the place of the handle, so there is room for it. -/
theorem push_pop_of_back? {v handle : Value} {input : Input}
    (hroom : (s.stack.size : Int) ≤ f.maxStack) (hback : s.stack.back? = some handle) :
    push f { s with stack := s.stack.pop, input } v =
      .next { s with stack := s.stack.pop.push v, input, pc := s.pc + 1 } := by
  have hpos : 0 < s.stack.size := by
    obtain ⟨below, hbelow⟩ := Array.back?_eq_some_iff.mp hback
    rw [hbelow, Array.size_push]
    omega
  rw [push, if_pos]
  simp only [Array.size_pop]
  omega

/-- Reading with a scanner takes what the scanner takes. -/
theorem read_reads {α : Type} {scan : Input → Input × Except Scan.Fault α}
    {shape : Bytes → Input → α → Prop} {value : α → Value} {op : Opcode}
    (hscan : Scan.Reads scan shape)
    (hop : ∀ segment after v, op.Yields segment after v ↔ ∃ a, v = value a ∧ shape segment after a)
    (hroom : (s.stack.size : Int) ≤ f.maxStack) : (s.read f scan value).Reads op s := by
  -- without a handle the input is not looked at
  have hidle : s.stack.back? ≠ some .input →
      Read.Takes ⟨op, s, { s with stack := s.stack.pop }, false⟩ [] := by
    intro hback
    refine ⟨rfl, ?_, fun hok => by cases hok⟩
    simp [hback]
  simp only [read, State.pop]
  cases hback : s.stack.back? with
  | none => exact ⟨[], hidle (by simp [hback])⟩
  | some handle =>
    cases handle with
    | input =>
      dsimp only
      rcases hresult : scan s.input with ⟨input, fault | a⟩
      · obtain ⟨segment, hsegment⟩ := hscan.suffix s.input
        rw [hresult] at hsegment
        refine ⟨segment, hsegment.symm, ?_, fun hok => by cases hok⟩
        -- had it found something, the scanner would have succeeded
        refine iff_of_false (by simp) ?_
        rintro ⟨_, taken, rest, v, hunread, hyields⟩
        obtain ⟨a, _, hshape⟩ := (hop _ _ _).mp hyields
        have hok := (hscan.ok_iff s.input { s.input with unread := rest } a).mpr
          ⟨rfl, taken, hunread, hshape⟩
        rw [hresult] at hok
        cases hok
      · obtain ⟨hfailure, segment, hunread, hshape⟩ := (hscan.ok_iff _ _ _).mp hresult
        have hyields := (hop segment input (value a)).mpr ⟨a, rfl, hshape⟩
        dsimp only
        rw [push_pop_of_back? hroom hback]
        refine ⟨segment, hunread, iff_of_true rfl ⟨hback, ?_⟩, fun _ => ⟨value a, hyields, rfl⟩⟩
        refine ⟨segment, input.unread, value a, hunread, ?_⟩
        show op.Yields segment { input with failure := s.input.failure } (value a)
        rw [← hfailure]
        exact hyields
    | _ => exact ⟨[], hidle (by simp [hback])⟩

/-- An instruction that reads takes what it looks for. -/
theorem execute_reads {op : Opcode} (h : c.reads? = some op)
    (hroom : (s.stack.size : Int) ≤ f.maxStack) : (s.execute m f c).Reads op s := by
  obtain ⟨hop, hreads⟩ := Option.filter_eq_some_iff.mp h
  simp only [execute, hop]
  cases op with
  | readInt =>
    refine read_reads Scan.reads_integer ?_ hroom
    intro segment after v
    cases v <;> simp [Opcode.Yields]
  | readLine =>
    refine read_reads Scan.reads_line ?_ hroom
    intro segment after v
    cases v <;> simp [Opcode.Yields]
  | _ => cases hreads

end State

/-! ## Runs -/

namespace Machine

/-- The read that a turn executes, if it executes one. -/
def readAt? (m : Module) (f : Frame) (limits : Limits) (s : State) : Option Read :=
  (f.code[s.pc]?.bind Code.reads?).bind fun op =>
    match turn m f limits s with
    | .running t => some ⟨op, s.counted, t, true⟩
    | .stopped (.fault ..) t => some ⟨op, s.counted, t, false⟩
    | .stopped _ _ => none

variable {m : Module} {f : Frame} {limits : Limits} {s : State} {status : Status}

/-- What one turn takes from the input is taken by the read that it executes. -/
theorem turn_consumes (hroom : (s.stack.size : Int) ≤ f.maxStack) :
    Consumes (readAt? m f limits s).toList s.input.unread
      (turn m f limits s).state.input.unread := by
  unfold readAt? turn
  cases hcode : f.code[s.pc]? with
  | none => exact .nil _
  | some c =>
    dsimp only
    rw [Option.bind_some]
    split_ifs
    -- the run is stopped before the instruction
    · rw [Option.bind_fun_none]
      exact .nil _
    · rw [Option.bind_fun_none]
      exact .nil _
    · cases hop : c.reads? with
      | none =>
        have hkeeps := State.execute_keepsInput (m := m) (f := f) (s := s.counted) hop
        unfold State.counted at hkeeps
        revert hkeeps
        cases State.execute m f c { s with steps := s.steps + 1 } with
        | next t | done t | fault reason t =>
          intro hkeeps
          have hinput : t.input = s.input := hkeeps
          simp only [Option.bind_none, Option.toList_none, Status.state, hinput]
          exact .nil _
        | crash => exact fun _ => .nil _
      | some op =>
        have hread := State.execute_reads (m := m) (s := s.counted) hop hroom
        unfold State.counted at hread
        revert hread
        cases State.execute m f c { s with steps := s.steps + 1 } with
        | next t | fault reason t =>
          rintro ⟨segment, htakes⟩
          exact htakes.consumes
        | done t | crash => exact False.elim

theorem advance_consumes (n : Nat) (hroom : (status.state.stack.size : Int) ≤ f.maxStack) :
    Consumes (logIn (readAt? m f limits) m f limits n status) status.state.input.unread
      (advance m f limits n status).state.input.unread := by
  induction n generalizing status with
  | zero =>
    rw [advance_zero]
    exact .nil _
  | succ n ih =>
    cases status with
    | stopped outcome s => exact .nil _
    | running s =>
      have hturned := turned m f limits s
      exact (turn_consumes hroom).append (ih (hturned.stack_le hroom))

end Machine

/-! ## Sessions -/

/-- A machine that was run a number of times: the reads so far, and the state that
the last run came to. -/
structure Session where
  reads : List Read := []
  last : State

/-- Run the machine once more, for a number of turns. -/
def Session.run (m : Module) (session : Session) (limits : Limits) (n : Nat) : Session :=
  match Machine.begin m session.last with
  | .error _ => session
  | .ok (f, s) =>
    { reads := session.reads ++ Machine.logIn (Machine.readAt? m f limits) m f limits n (.running s)
      last := (Machine.advance m f limits n (.running s)).state }

/-- A session of several runs, each with its limits and for its number of turns. -/
def Session.runAll (m : Module) (session : Session) (runs : List (Limits × Nat)) : Session :=
  runs.foldl (fun session run => session.run m run.1 run.2) session

theorem Session.run_consumes (m : Module) (session : Session) (limits : Limits) (n : Nat)
    {unread : Bytes} (h : Consumes session.reads unread session.last.input.unread) :
    Consumes (session.run m limits n).reads unread (session.run m limits n).last.input.unread := by
  unfold Session.run
  split
  · exact h
  · rename_i f s hbegin
    obtain ⟨_, ⟨hstack, _⟩, rfl⟩ := Machine.begin_eq_ok_iff.mp hbegin
    have hroom : 0 ≤ f.maxStack := by
      simp only [Machine.hasRoom, Bool.and_eq_true, decide_eq_true_eq] at hstack
      exact hstack.1
    exact h.append (Machine.advance_consumes n hroom)

theorem Session.runAll_consumes (m : Module) (session : Session) (runs : List (Limits × Nat))
    {unread : Bytes} (h : Consumes session.reads unread session.last.input.unread) :
    Consumes (session.runAll m runs).reads unread (session.runAll m runs).last.input.unread := by
  induction runs generalizing session with
  | nil => exact h
  | cons run runs ih => exact ih (session.run m run.1 run.2) (session.run_consumes m run.1 run.2 h)

/-- **Input is read from left to right.** However often a machine is run, and whatever
its module, its limits and its input are: what the reads took, one after the other,
and then what is left to read is the input that it started with. -/
theorem Session.reads_in_order (m : Module) (start : State) (runs : List (Limits × Nat)) :
    ∃ segments : List Bytes,
      List.Forall₂ Read.Takes (Session.runAll m { last := start } runs).reads segments ∧
      segments.flatten ++ (Session.runAll m { last := start } runs).last.input.unread
        = start.input.unread :=
  Session.runAll_consumes m { last := start } runs (.nil _)

/-- A module that reads an integer and then the rest of its line. -/
def pairing : Module where
  name := ascii "pairing"
  constants := #[]
  routines := [{
    name := entryName, maxStack := 2, maxLocals := 0
    code := #[{ op := Opcode.openInput.byte }, { op := Opcode.readInt.byte },
      { op := Opcode.openInput.byte }, { op := Opcode.readLine.byte }, { op := Opcode.ret.byte }] }]

-- the second run goes on where the first one stopped, and ends with a line that no newline ends
example :
    (Session.runAll pairing { last := { input := .ofBytes (ascii "  17 tail\r\n\n+3\r") } }
        [({}, 5), ({}, 5)]).reads.map (fun r => (r.after.stack.back?, r.after.input.unread))
      = [(some (.int 17), ascii " tail\r\n\n+3\r"), (some (.text (ascii " tail")), ascii "\n+3\r"),
         (some (.int 3), ascii "\r"), (some (.text []), [])] := by
  decide +kernel

end Stackling
