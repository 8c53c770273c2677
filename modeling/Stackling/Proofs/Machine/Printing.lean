import Stackling.Proofs.Machine.Reading

/-!
# Output is written from left to right

Nothing but a print adds to the output of a machine, and a print adds the line of the
value that it is offered. What happens at a port during a run is told by a *log*, which
notes some of the turns:

* **linked logs** — each note finds the port as the note before it has left it (`Linked`);
  this holds for runs (`Machine.logIn_linked`) and for sessions (`Session.logAll_linked`)
  if it holds for every turn;
* **reads** — the log of the reads is linked at the input (`Session.reads_linked`);
* **prints** — the log of the prints is linked at the output (`Session.prints_linked`), so
  that the output is what was there before and the lines of the values
  (`Print.output_of_offers`).
-/

namespace Stackling

/-! ## Logs -/

/-- Notes that lead from one content of a port to another, each of them on from where
the one before it stopped. -/
inductive Linked {α β : Type} (before after : α → β) : List α → β → β → Prop
  | nil (b : β) : Linked before after [] b b
  | cons {a : α} {as : List α} {b : β} (h : Linked before after as (after a) b) :
      Linked before after (a :: as) (before a) b

theorem Linked.append {α β : Type} {before after : α → β} {first second : List α} {b c d : β}
    (h : Linked before after first b c) (h' : Linked before after second c d) :
    Linked before after (first ++ second) b d := by
  induction h with
  | nil => exact h'
  | cons _ ih => exact .cons (ih h')

namespace Machine

variable {α β : Type} {m : Module} {f : Frame} {limits : Limits} {s : State} {status : Status}

theorem mem_logIn {note? : State → Option α} {n : Nat} {a : α}
    (h : a ∈ logIn note? m f limits n status) : ∃ s, note? s = some a := by
  induction n generalizing status with
  | zero => cases h
  | succ n ih =>
    cases status with
    | stopped => cases h
    | running s =>
      rw [logIn, List.mem_append, Option.mem_toList] at h
      rcases h with h | h
      · exact ⟨s, h⟩
      · exact ih h

/-- A log is linked if every turn is, where no state has more operands than the frame
asks for. -/
theorem logIn_linked {note? : State → Option α} {before after : α → β} {port : State → β}
    (hturn : ∀ s : State, (s.stack.size : Int) ≤ f.maxStack →
      Linked before after (note? s).toList (port s) (port (turn m f limits s).state))
    (n : Nat) (status : Status) (hroom : (status.state.stack.size : Int) ≤ f.maxStack) :
    Linked before after (logIn note? m f limits n status) (port status.state)
      (port (advance m f limits n status).state) := by
  induction n generalizing status with
  | zero =>
    rw [advance_zero]
    exact .nil _
  | succ n ih =>
    cases status with
    | stopped => exact .nil _
    | running s => exact (hturn s hroom).append (ih _ ((turned m f limits s).stack_le hroom))

theorem begin_room {last : State} (h : begin m last = .ok (f, s)) :
    (s.stack.size : Int) ≤ f.maxStack := by
  obtain ⟨_, ⟨hstack, _⟩, rfl⟩ := begin_eq_ok_iff.mp h
  simp only [hasRoom, Bool.and_eq_true, decide_eq_true_eq] at hstack
  exact hstack.1

end Machine

namespace Session

variable {α β : Type} {m : Module}

/-- What is noted in one run. -/
def log (note? : Frame → Limits → State → Option α) (m : Module) (session : Session)
    (run : Limits × Nat) : List α :=
  match Machine.begin m session.last with
  | .error _ => []
  | .ok (f, s) => Machine.logIn (note? f run.1) m f run.1 run.2 (.running s)

/-- What is noted in several runs. -/
def logAll (note? : Frame → Limits → State → Option α) (m : Module) (session : Session) :
    List (Limits × Nat) → List α
  | [] => []
  | run :: runs => session.log note? m run ++ logAll note? m (session.run m run.1 run.2) runs

theorem mem_logAll {note? : Frame → Limits → State → Option α} {session : Session}
    {runs : List (Limits × Nat)} {a : α} (h : a ∈ session.logAll note? m runs) :
    ∃ f limits s, note? f limits s = some a := by
  induction runs generalizing session with
  | nil => cases h
  | cons run runs ih =>
    rw [logAll, List.mem_append] at h
    rcases h with h | h
    · unfold log at h
      split at h
      · cases h
      · rename_i f s _
        obtain ⟨t, ht⟩ := Machine.mem_logIn h
        exact ⟨f, run.1, t, ht⟩
    · exact ih h

theorem reads_eq_logAll (session : Session) (runs : List (Limits × Nat)) :
    (session.runAll m runs).reads = session.reads ++ session.logAll (Machine.readAt? m) m runs := by
  induction runs generalizing session with
  | nil => exact (List.append_nil _).symm
  | cons run runs ih =>
    have hrun : (session.run m run.1 run.2).reads
        = session.reads ++ session.log (Machine.readAt? m) m run := by
      unfold Session.run log
      rcases Machine.begin m session.last with outcome | ⟨f, s⟩
      · exact (List.append_nil _).symm
      · rfl
    rw [logAll, ← List.append_assoc, ← hrun]
    exact ih (session.run m run.1 run.2)

/-- The log of a session is linked at a port if every turn is. -/
theorem logAll_linked {note? : Frame → Limits → State → Option α} {before after : α → β}
    (port : State → β)
    (hbegin : ∀ {last f s}, Machine.begin m last = .ok (f, s) → port s = port last)
    (hturn : ∀ f limits (s : State), (s.stack.size : Int) ≤ f.maxStack →
      Linked before after (note? f limits s).toList (port s)
        (port (Machine.turn m f limits s).state))
    (session : Session) (runs : List (Limits × Nat)) :
    Linked before after (session.logAll note? m runs) (port session.last)
      (port (session.runAll m runs).last) := by
  induction runs generalizing session with
  | nil => exact .nil _
  | cons run runs ih =>
    refine Linked.append ?_ (ih (session.run m run.1 run.2))
    unfold Session.run log
    rcases h : Machine.begin m session.last with outcome | ⟨f, s⟩
    · exact .nil _
    · rw [← hbegin h]
      exact Machine.logIn_linked (hturn f run.1) run.2 (.running s) (Machine.begin_room h)

end Session

/-! ## Reads -/

namespace Machine

variable {m : Module} {f : Frame} {limits : Limits} {s : State}

/-- A read starts where its turn starts, and ends where it ends. -/
theorem readAt?_eq_some {r : Read} (h : readAt? m f limits s = some r) :
    r.before = s.counted ∧ r.after = (turn m f limits s).state := by
  obtain ⟨op, _, h⟩ := Option.bind_eq_some_iff.mp h
  split at h
  · rename_i t hturn
    cases h
    exact ⟨rfl, by rw [hturn]; rfl⟩
  · rename_i t hturn
    cases h
    exact ⟨rfl, by rw [hturn]; rfl⟩
  · cases h

theorem readAt?_linked (hroom : (s.stack.size : Int) ≤ f.maxStack) :
    Linked (·.before.input.unread) (·.after.input.unread) (readAt? m f limits s).toList
      s.input.unread (turn m f limits s).state.input.unread := by
  cases hread : readAt? m f limits s with
  | none =>
    obtain ⟨segments, htakes, hunread⟩ := @turn_consumes m f limits s hroom
    rw [hread] at htakes
    cases htakes
    rw [← hunread]
    exact .nil _
  | some r =>
    obtain ⟨hbefore, hafter⟩ := readAt?_eq_some hread
    have hunread : r.before.input.unread = s.input.unread := by
      rw [hbefore]
      rfl
    rw [← hunread, ← hafter]
    exact .cons (.nil _)

end Machine

/-- Every read goes on where the one before it stopped. -/
theorem Session.reads_linked (m : Module) (start : State) (runs : List (Limits × Nat)) :
    Linked (·.before.input.unread) (·.after.input.unread)
      (Session.runAll m { last := start } runs).reads start.input.unread
      (Session.runAll m { last := start } runs).last.input.unread := by
  rw [reads_eq_logAll, List.nil_append]
  refine logAll_linked (·.input.unread) ?_ ?_ { last := start } runs
  · intro last f s h
    obtain ⟨_, _, rfl⟩ := Machine.begin_eq_ok_iff.mp h
    rfl
  · intro f limits s hroom
    exact Machine.readAt?_linked hroom

/-! ## Prints -/

/-- A value as it is printed, on a line of its own. -/
def Value.line (v : Value) : Bytes := v.render ++ [Bytes.newline]

/-- A print that was executed. -/
structure Print where
  before : State
  after : State
  /-- Whether the run goes on after it. -/
  ok : Bool

/-- A print is offered a value, above a handle to print it to. -/
structure Print.Offers (p : Print) (v : Value) : Prop where
  value : p.before.stack.back? = some v
  handle : p.before.stack.pop.back? = some .output

/-- What a print may have done. It succeeds if it is offered a value whose line the
output accepts; then the line is added to the output. -/
structure Print.Lawful (p : Print) : Prop where
  ok_iff : p.ok = true ↔ ∃ v, p.Offers v ∧ p.before.output.accepts v.line.length = true
  added : ∀ v, p.Offers v → p.ok = true → p.after.output = p.before.output.append v.line
  kept : p.ok = false → p.after.output = p.before.output

/-- A step that has not printed. -/
def Step.KeepsOutput (s : State) : Step → Prop
  | .next t | .done t | .fault _ t => t.output = s.output
  | .crash => True

theorem Step.KeepsPorts.keepsOutput {s : State} {step : Step} (h : step.KeepsPorts s) :
    step.KeepsOutput s := by
  cases step with
  | next | done | fault => exact h.2
  | crash => trivial

/-- A step that is a print. -/
def Step.Prints (s : State) : Step → Prop
  | .next t => Print.Lawful ⟨s, t, true⟩
  | .fault _ t => Print.Lawful ⟨s, t, false⟩
  | .done _ | .crash => False

namespace State

variable {m : Module} {f : Frame} {c : Code} {s : State}

theorem print_prints : s.print.Prints s := by
  -- a print that fails leaves the output as it is
  have hfails : ∀ {t : State}, t.output = s.output →
      (∀ v, Print.Offers ⟨s, t, false⟩ v → s.output.accepts v.line.length = false) →
      Print.Lawful ⟨s, t, false⟩ := by
    intro t houtput hrefuses
    refine ⟨iff_of_false Bool.false_ne_true ?_, fun v _ hok => (Bool.false_ne_true hok).elim,
      fun _ => houtput⟩
    rintro ⟨v, hoffers, haccepts⟩
    exact Bool.false_ne_true ((hrefuses v hoffers).symm.trans haccepts)
  simp only [print, State.pop]
  cases hvalue : s.stack.back? with
  | none => exact hfails rfl fun v h => by simpa [hvalue] using h.value
  | some v =>
    dsimp only
    cases hhandle : s.stack.pop.back? with
    | none => exact hfails rfl fun v h => by simpa [hhandle] using h.handle
    | some handle =>
      -- the value that is offered is the topmost one
      have heq : ∀ {t ok w}, Print.Offers ⟨s, t, ok⟩ w → w = v := fun h =>
        Option.some.inj (h.value.symm.trans hvalue)
      cases handle with
      | output =>
        dsimp only
        split_ifs with haccepts
        · refine ⟨iff_of_true rfl ⟨v, ⟨hvalue, hhandle⟩, haccepts⟩, ?_, fun hok => by cases hok⟩
          intro w hoffers _
          rw [heq hoffers]
          rfl
        · refine hfails rfl fun w hoffers => ?_
          rw [heq hoffers]
          exact Bool.eq_false_iff.mpr haccepts
      | _ => exact hfails rfl fun w h => by simpa [hhandle] using h.handle

theorem read_keepsOutput {α : Type} (scan : Input → Input × Except Scan.Fault α)
    (value : α → Value) : (s.read f scan value).KeepsOutput s := by
  simp only [read, State.pop]
  cases s.stack.back? with
  | none => rfl
  | some handle =>
    cases handle with
    | input =>
      dsimp only
      split
      · rfl
      · unfold push
        split <;> rfl
    | _ => rfl

/-- An instruction that does not print leaves the output as it is. -/
theorem execute_keepsOutput (h : c.opcode? ≠ some .print) : (s.execute m f c).KeepsOutput s := by
  by_cases hread : c.opcode? = some .readInt ∨ c.opcode? = some .readLine
  · rcases hread with hop | hop <;> simp only [execute, hop] <;> exact read_keepsOutput _ _
  · refine (execute_keepsPorts fun op hop => ?_).keepsOutput
    rw [not_or] at hread
    cases op with
    | print => exact absurd hop h
    | readInt => exact absurd hop hread.1
    | readLine => exact absurd hop hread.2
    | _ => rfl

end State

namespace Machine

variable {m : Module} {f : Frame} {limits : Limits} {s : State}

/-- The print that a turn executes, if it executes one. -/
def printAt? (m : Module) (f : Frame) (limits : Limits) (s : State) : Option Print :=
  if f.code[s.pc]?.bind Code.opcode? = some .print then
    match turn m f limits s with
    | .running t => some ⟨s.counted, t, true⟩
    | .stopped (.fault ..) t => some ⟨s.counted, t, false⟩
    | .stopped _ _ => none
  else none

/-- A note of what was printed accounts for all that has become of an output. -/
def Accounts (note : Option Print) (first last : Output) : Prop :=
  (∀ p, note = some p → p.Lawful) ∧
    Linked (·.before.output) (·.after.output) note.toList first last

theorem Accounts.none (output : Output) : Accounts none output output :=
  ⟨fun p h => (Option.some_ne_none p h.symm).elim, .nil _⟩

theorem Accounts.some {p : Print} (h : p.Lawful) :
    Accounts (some p) p.before.output p.after.output :=
  ⟨fun _ hq => Option.some.inj hq ▸ h, .cons (.nil _)⟩

/-- The print that a turn executes is lawful, and nothing else changes the output. -/
theorem printAt?_accounts (m : Module) (f : Frame) (limits : Limits) (s : State) :
    Accounts (printAt? m f limits s) s.output (turn m f limits s).state.output := by
  unfold printAt? turn
  cases hcode : f.code[s.pc]? with
  | none => exact .none _
  | some c =>
    dsimp only
    rw [Option.bind_some]
    by_cases hprint : c.opcode? = some .print
    · have hexecute : State.execute m f c { s with steps := s.steps + 1 } = s.counted.print := by
        simp only [State.execute, hprint]
        rfl
      have hprints := State.print_prints (s := s.counted)
      rw [if_pos hprint, hexecute]
      split_ifs
      -- the run is stopped before the instruction
      · exact .none _
      · exact .none _
      · revert hprints
        cases s.counted.print with
        | next t | fault reason t => exact Accounts.some
        | done t | crash => exact False.elim
    · have hkeeps := State.execute_keepsOutput (m := m) (f := f) (s := s.counted) hprint
      rw [if_neg hprint]
      split_ifs
      · exact .none _
      · exact .none _
      · unfold State.counted at hkeeps
        revert hkeeps
        cases State.execute m f c { s with steps := s.steps + 1 } with
        | next t | done t | fault reason t =>
          intro hkeeps
          have houtput : t.output = s.output := hkeeps
          simp only [Status.state, houtput]
          exact .none _
        | crash => exact fun _ => .none _

end Machine

/-- The prints of several runs. -/
def Session.prints (m : Module) (session : Session) (runs : List (Limits × Nat)) : List Print :=
  session.logAll (Machine.printAt? m) m runs

theorem Session.lawful_of_mem_prints {m : Module} {session : Session}
    {runs : List (Limits × Nat)} {p : Print} (h : p ∈ session.prints m runs) : p.Lawful := by
  obtain ⟨f, limits, s, hp⟩ := mem_logAll h
  exact (Machine.printAt?_accounts m f limits s).1 p hp

/-- Every print adds to what the one before it left. -/
theorem Session.prints_linked (m : Module) (session : Session) (runs : List (Limits × Nat)) :
    Linked (·.before.output) (·.after.output) (session.prints m runs) session.last.output
      (session.runAll m runs).last.output := by
  refine logAll_linked (·.output) ?_ ?_ session runs
  · intro last f s h
    obtain ⟨_, _, rfl⟩ := Machine.begin_eq_ok_iff.mp h
    rfl
  · intro f limits s _
    exact (Machine.printAt?_accounts m f limits s).2

/-- Prints that are offered values write their lines in order, if the output accepts
everything. -/
theorem Print.output_of_offers {prints : List Print} {values : List Value} {first last : Output}
    (hlinked : Linked (·.before.output) (·.after.output) prints first last)
    (hlawful : ∀ p ∈ prints, p.Lawful) (hoffers : List.Forall₂ Print.Offers prints values)
    (hlimit : first.limit = none) :
    (∀ p ∈ prints, p.ok = true) ∧ last = first.append (values.flatMap Value.line) := by
  induction hoffers generalizing first with
  | nil =>
    cases hlinked
    exact ⟨List.forall_mem_nil _, (Output.append_nil _).symm⟩
  | @cons p v prints values hp _ ih =>
    rw [List.forall_mem_cons] at hlawful
    cases hlinked with
    | cons hrest =>
      have haccepts : p.before.output.accepts v.line.length = true := by
        rw [Output.accepts, hlimit]
      have hok := hlawful.1.ok_iff.mpr ⟨v, hp, haccepts⟩
      have hafter := hlawful.1.added v hp hok
      obtain ⟨hall, rfl⟩ := ih hrest hlawful.2 (by rw [hafter]; exact hlimit)
      refine ⟨List.forall_mem_cons.mpr ⟨hok, hall⟩, ?_⟩
      rw [hafter, Output.append_append, List.flatMap_cons]

end Stackling
