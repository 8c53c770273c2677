import Stackling.Proofs.Machine.Printing

/-!
# Printed values are read back

What one machine prints is the input of another one, which reads it with one kind of
read, as often as there are values (`Relay`). If the values are ones that this kind of
read can read back, then all prints and all reads succeed, and the values that are read
are those that were printed (`Relay.delivers`). So it is

* for **integers** and reads of integers, which leave the newline after the last one;
* for **texts** and reads of lines, which leave nothing, as long as no text has a newline
  or ends with a carriage return (`Relay.values_come_back`).

There are machines for every list of such values: a program that copies its input to its
output can be both the one that prints and the one that reads (`Relay.ofReadsBack`).
-/

namespace Stackling

/-! ## One value -/

/-- A kind of read gets a value from its printed line, whatever follows. It leaves a
tail of the line, and passes over such a tail before the line. -/
def Opcode.ReadsBack (op : Opcode) (tail : Bytes) (v : Value) : Prop :=
  ∃ body, v.line = body ++ tail ∧ ∀ gap, gap = [] ∨ gap = tail → ∀ rest failure,
    op.Yields (gap ++ body) { unread := tail ++ rest, failure } v

theorem Opcode.readsBack_int (n : Int32) :
    Opcode.readInt.ReadsBack [Bytes.newline] (.int n) := by
  have hspells := Decimal.spells_ofInt32 n
  refine ⟨Decimal.ofInt32 n, rfl, ?_⟩
  intro gap hgap rest failure
  refine ⟨gap, Decimal.ofInt32 n, rfl, ?_, hspells.not_isSpace, hspells, ?_, ?_⟩
  · rcases hgap with rfl | rfl
    · exact List.forall_mem_nil _
    · exact List.forall_mem_singleton.mpr rfl
  · rintro _ ⟨⟩
    rfl
  · rintro ⟨⟩

theorem Opcode.readsBack_text {text : Bytes} (hline : Bytes.newline ∉ text)
    (hreturn : text.getLast? ≠ some 13) : Opcode.readLine.ReadsBack [] (.text text) := by
  refine ⟨text ++ [Bytes.newline], (List.append_nil _).symm, ?_⟩
  rintro _ (rfl | rfl) rest failure <;>
    exact ⟨text, hline, .inr ⟨rfl, hreturn⟩, .inl rfl⟩

theorem Opcode.Yields.reads {op : Opcode} {segment : Bytes} {after : Input} {v : Value}
    (h : op.Yields segment after v) : op.reads = true := by
  cases op with
  | readInt | readLine => rfl
  | _ => exact h.elim

/-- What a read finds at the front of an input is determined. -/
theorem Opcode.Yields.unique {op : Opcode} {segment segment' : Bytes} {after after' : Input}
    {v v' : Value} (h : op.Yields segment after v) (h' : op.Yields segment' after' v')
    (heq : segment ++ after.unread = segment' ++ after'.unread)
    (hfailure : after.failure = after'.failure) : after = after' ∧ v = v' := by
  cases op with
  | readInt =>
    cases v with
    | int n =>
      cases v' with
      | int n' =>
        obtain ⟨hafter, rfl⟩ := Scan.reads_integer.unique h h' heq hfailure
        exact ⟨hafter, rfl⟩
      | _ => exact False.elim h'
    | _ => exact False.elim h
  | readLine =>
    cases v with
    | text text =>
      cases v' with
      | text text' =>
        obtain ⟨hafter, rfl⟩ := Scan.reads_line.unique h h' heq hfailure
        exact ⟨hafter, rfl⟩
      | _ => exact False.elim h'
    | _ => exact False.elim h
  | _ => exact False.elim h

/-- A read succeeds with a value, which takes the place of the handle. -/
structure Read.Gets (r : Read) (v : Value) : Prop where
  ok : r.ok = true
  stack : r.after.stack = r.before.stack.pop.push v

/-- A read that comes to the line of a value gets the value. -/
theorem Read.Takes.gets {r : Read} {segment tail gap rest : Bytes} {v : Value}
    (h : r.Takes segment) (hback : r.op.ReadsBack tail v) (hgap : gap = [] ∨ gap = tail)
    (hhandle : r.before.stack.back? = some .input)
    (hunread : r.before.input.unread = gap ++ (v.line ++ rest)) :
    r.Gets v ∧ r.after.input.unread = tail ++ rest := by
  obtain ⟨body, hline, hyields⟩ := hback
  have hfront : r.before.input.unread = (gap ++ body) ++ (tail ++ rest) := by
    rw [hunread, hline]
    simp only [List.append_assoc]
  have hok := h.ok_iff.mpr ⟨hhandle, gap ++ body, tail ++ rest, v, hfront,
    hyields gap hgap rest r.before.input.failure⟩
  obtain ⟨v', hyields', hstack⟩ := h.yields hok
  obtain ⟨hafter, rfl⟩ := hyields'.unique (hyields gap hgap rest r.after.input.failure)
    (h.consumed.symm.trans hfront) rfl
  exact ⟨⟨hok, hstack⟩, congrArg Input.unread hafter⟩

/-! ## All values -/

theorem Consumes.exists_takes {reads : List Read} {unread rest : Bytes}
    (h : Consumes reads unread rest) : ∀ r ∈ reads, ∃ segment, r.Takes segment := by
  obtain ⟨segments, htakes, _⟩ := h
  clear * - htakes
  induction htakes with
  | nil => exact List.forall_mem_nil _
  | @cons _ segment _ _ h _ ih => exact List.forall_mem_cons.mpr ⟨⟨segment, h⟩, ih⟩

/-- Reads that come to the lines of values get the values. -/
theorem Read.gets_of_linked {op : Opcode} {tail gap unread last : Bytes} {values : List Value}
    {reads : List Read} (hback : ∀ v ∈ values, op.ReadsBack tail v)
    (hreads : ∀ r ∈ reads, (∃ segment, r.Takes segment) ∧ r.op = op ∧
      r.before.stack.back? = some .input)
    (hcount : reads.length = values.length)
    (hlinked : Linked (·.before.input.unread) (·.after.input.unread) reads unread last)
    (hgap : gap = [] ∨ gap = tail) (hunread : unread = gap ++ values.flatMap Value.line) :
    List.Forall₂ Read.Gets reads values ∧ (last = [] ∨ last = tail) := by
  induction values generalizing reads gap unread with
  | nil =>
    obtain rfl := List.eq_nil_of_length_eq_zero hcount
    cases hlinked
    rw [hunread, List.flatMap_nil, List.append_nil]
    exact ⟨.nil, hgap⟩
  | cons v values ih =>
    obtain ⟨r, reads, rfl⟩ := List.exists_cons_of_length_eq_add_one hcount
    rw [List.forall_mem_cons] at hback hreads
    obtain ⟨⟨⟨segment, htakes⟩, rfl, hhandle⟩, hreads⟩ := hreads
    cases hlinked with
    | cons hrest =>
      obtain ⟨hgets, hafter⟩ := htakes.gets hback.1 hgap hhandle hunread
      obtain ⟨hall, hlast⟩ := ih hback.2 hreads (Nat.succ.inj hcount) hrest (.inr rfl) hafter
      exact ⟨.cons hgets hall, hlast⟩

/-- Work for a machine: a module, the state that it starts from, and how often and how
long it is run. -/
structure Work where
  program : Module
  start : State
  runs : List (Limits × Nat)

namespace Work

variable (work : Work)

/-- The work when it is done. -/
def session : Session := Session.runAll work.program { last := work.start } work.runs

/-- The prints that are executed. -/
def prints : List Print := Session.prints work.program { last := work.start } work.runs

/-- Prints of values write their lines, if the output accepts everything. -/
theorem output_of_offered {work : Work} {values : List Value}
    (hlimit : work.start.output.limit = none)
    (hoffered : List.Forall₂ Print.Offers work.prints values) :
    (∀ p ∈ work.prints, p.ok = true) ∧
      work.session.last.output = work.start.output.append (values.flatMap Value.line) :=
  Print.output_of_offers (Session.prints_linked work.program { last := work.start } work.runs)
    (fun _ => Session.lawful_of_mem_prints) hoffered hlimit

theorem exists_takes {work : Work} : ∀ r ∈ work.session.reads, ∃ segment, r.Takes segment :=
  (Session.runAll_consumes work.program { last := work.start } work.runs (.nil _)).exists_takes

end Work

/-- One machine prints values in order, and another one gets what is printed as its
input and executes one kind of read as often as there are values. -/
structure Relay (op : Opcode) (values : List Value) where
  writer : Work
  reader : Work
  unlimited : writer.start.output.limit = none
  offered : List.Forall₂ Print.Offers writer.prints values
  fed : writer.session.last.output.bytes
    = writer.start.output.bytes ++ reader.start.input.unread
  asked : ∀ r ∈ reader.session.reads, r.op = op ∧ r.before.stack.back? = some .input
  count : reader.session.reads.length = values.length

namespace Relay

variable {op : Opcode} {tail : Bytes} {values : List Value}

/-- All prints and reads succeed, and the values are read in the order in which they
were printed. -/
structure Delivers (relay : Relay op values) : Prop where
  printed : ∀ p ∈ relay.writer.prints, p.ok = true
  read : List.Forall₂ Read.Gets relay.reader.session.reads values

/-- What is left of the input in the end. -/
def left (relay : Relay op values) : Bytes := relay.reader.session.last.input.unread

theorem delivers (hback : ∀ v ∈ values, op.ReadsBack tail v) (relay : Relay op values) :
    relay.Delivers ∧ (relay.left = [] ∨ relay.left = tail) := by
  obtain ⟨hprinted, houtput⟩ := Work.output_of_offered relay.unlimited relay.offered
  have hunread : relay.reader.start.input.unread = [] ++ values.flatMap Value.line := by
    have hfed := relay.fed
    rw [houtput, Output.bytes_append] at hfed
    exact (List.append_cancel_left hfed).symm
  obtain ⟨hread, hleft⟩ := Read.gets_of_linked hback
    (fun r hr => ⟨Work.exists_takes r hr, relay.asked r hr⟩) relay.count
    (Session.reads_linked relay.reader.program relay.reader.start relay.reader.runs) (.inl rfl)
    hunread
  exact ⟨⟨hprinted, hread⟩, hleft⟩

end Relay

/-! ## Machines that print and read -/

/-- The code of a program that reads values of one kind, and prints each of them. -/
def copierMain (op : Opcode) : Frame where
  name := entryName
  maxStack := 2
  maxLocals := 0
  code := #[{ op := Opcode.openOutput.byte }, { op := Opcode.openInput.byte }, { op := op.byte },
    { op := Opcode.print.byte }, { op := Opcode.jump.byte, operand := 0 }]

def copier (op : Opcode) : Module where
  name := ascii "copier"
  constants := #[]
  routines := [copierMain op]

/-- An instruction that finds what it reads pushes it in place of the handle. -/
theorem State.execute_of_yields {m : Module} {f : Frame} {c : Code} {op : Opcode} {s : State}
    {segment : Bytes} {after : Input} {v : Value} (hop : c.opcode? = some op)
    (hyields : op.Yields segment after v)
    (hinput : s.input = { after with unread := segment ++ after.unread })
    (hback : s.stack.back? = some .input) (hroom : (s.stack.size : Int) ≤ f.maxStack) :
    s.execute m f c
      = .next { s with stack := s.stack.pop.push v, input := after, pc := s.pc + 1 } := by
  cases op with
  | readInt =>
    cases v with
    | int n =>
      have hscan := (Scan.reads_integer.ok_iff s.input after n).mpr
        ⟨by rw [hinput], segment, by rw [hinput], hyields⟩
      simp only [execute, hop, read, State.pop, hback, hscan]
      exact push_pop_of_back? hroom hback
    | _ => exact hyields.elim
  | readLine =>
    cases v with
    | text text =>
      have hscan := (Scan.reads_line.ok_iff s.input after text).mpr
        ⟨by rw [hinput], segment, by rw [hinput], hyields⟩
      simp only [execute, hop, read, State.pop, hback, hscan]
      exact push_pop_of_back? hroom hback
    | _ => exact hyields.elim
  | _ => exact hyields.elim

namespace Machine

variable {m : Module} {f : Frame} {s t : State} {c : Code}

theorem turn_of_next (hcode : f.code[s.pc]? = some c) (h : s.counted.execute m f c = .next t) :
    turn m f {} s = .running t := by
  unfold State.counted at h
  simp [turn, hcode, h]

theorem readAt?_of_running {op : Opcode} (hcode : f.code[s.pc]? = some c)
    (hop : c.reads? = some op) (h : turn m f {} s = .running t) :
    readAt? m f {} s = some ⟨op, s.counted, t, true⟩ := by
  simp [readAt?, hcode, hop, h]

theorem printAt?_of_running (hcode : f.code[s.pc]?.bind Code.opcode? = some .print)
    (h : turn m f {} s = .running t) : printAt? m f {} s = some ⟨s.counted, t, true⟩ := by
  simp [printAt?, hcode, h]

end Machine

/-- The copier before it reads a value. -/
structure State.Waits (s : State) (unread : Bytes) : Prop where
  pc : s.pc = 0
  stack : s.stack = #[]
  limit : s.output.limit = none
  unread : s.input.unread = unread

/-- What is noted of the copier in a number of turns. -/
def copierLog {α : Type} (op : Opcode)
    (note? : Module → Frame → Limits → State → Option α) (n : Nat) (s : State) : List α :=
  Machine.logIn (note? (copier op) (copierMain op) {}) (copier op) (copierMain op) {} n (.running s)

/-- In five turns the copier reads a value and prints it. -/
theorem copier_round {op : Opcode} {s : State} {tail gap rest : Bytes} {v : Value}
    (hback : op.ReadsBack tail v) (hgap : gap = [] ∨ gap = tail)
    (hs : s.Waits (gap ++ (v.line ++ rest))) :
    ∃ t p r, t.Waits (tail ++ rest) ∧ Print.Offers p v ∧
      (r.op = op ∧ r.before.stack.back? = some .input) ∧
      ∀ n, copierLog op Machine.printAt? (n + 5) s = p :: copierLog op Machine.printAt? n t ∧
        copierLog op Machine.readAt? (n + 5) s = r :: copierLog op Machine.readAt? n t := by
  obtain ⟨pc, steps, stack, slots, ⟨unread, failure⟩, output⟩ := s
  obtain ⟨rfl, rfl, hlimit, rfl⟩ := hs
  obtain ⟨body, hline, hyields⟩ := hback
  have hyields := hyields gap hgap rest failure
  have hreads := hyields.reads
  have hfront : gap ++ (v.line ++ rest) = (gap ++ body) ++ (tail ++ rest) := by
    rw [hline]
    simp only [List.append_assoc]
  rw [hfront]
  let before : Input := { unread := (gap ++ body) ++ (tail ++ rest), failure }
  let after : Input := { unread := tail ++ rest, failure }
  let s₀ : State := ⟨0, steps, #[], slots, before, output⟩
  let s₁ : State := ⟨1, steps + 1, #[.output], slots, before, output⟩
  let s₂ : State := ⟨2, steps + 2, #[.output, .input], slots, before, output⟩
  let s₃ : State := ⟨3, steps + 3, #[.output, v], slots, after, output⟩
  let s₄ : State := ⟨4, steps + 4, #[], slots, after, output.append v.line⟩
  let s₅ : State := ⟨0, steps + 5, #[], slots, after, output.append v.line⟩
  have h₀ : Machine.turn (copier op) (copierMain op) {} s₀ = .running s₁ := rfl
  have h₁ : Machine.turn (copier op) (copierMain op) {} s₁ = .running s₂ := rfl
  have h₂ : Machine.turn (copier op) (copierMain op) {} s₂ = .running s₃ :=
    Machine.turn_of_next rfl
      (State.execute_of_yields (Opcode.ofByte?_byte op) hyields rfl rfl (Int.le_refl 2))
  have h₃ : Machine.turn (copier op) (copierMain op) {} s₃ = .running s₄ := by
    have haccepts : output.accepts v.line.length = true := by rw [Output.accepts, hlimit]
    exact Machine.turn_of_next rfl (if_pos haccepts)
  have h₄ : Machine.turn (copier op) (copierMain op) {} s₄ = .running s₅ := rfl
  have hread : Machine.readAt? (copier op) (copierMain op) {} s₂
      = some ⟨op, s₂.counted, s₃, true⟩ := by
    refine Machine.readAt?_of_running rfl ?_ h₂
    show (Opcode.ofByte? op.byte).filter Opcode.reads = some op
    rw [Opcode.ofByte?_byte, Option.filter_some, if_pos hreads]
  have hprint : Machine.printAt? (copier op) (copierMain op) {} s₃ = some ⟨s₃.counted, s₄, true⟩ :=
    Machine.printAt?_of_running rfl h₃
  have hidle : Machine.printAt? (copier op) (copierMain op) {} s₂ = none := by
    refine if_neg ?_
    show Opcode.ofByte? op.byte ≠ some .print
    rw [Opcode.ofByte?_byte]
    rintro ⟨⟩
    cases hreads
  refine ⟨s₅, ⟨s₃.counted, s₄, true⟩, ⟨op, s₂.counted, s₃, true⟩, ⟨rfl, rfl, hlimit, rfl⟩,
    ⟨rfl, rfl⟩, ⟨rfl, rfl⟩, fun n => ⟨?_, ?_⟩⟩
  · show Machine.logIn _ _ _ _ (n + 5) (.running s₀) = _
    simp only [Machine.logIn, h₀, h₁, h₂, h₃, h₄, hidle, hprint]
    rfl
  · show Machine.logIn _ _ _ _ (n + 5) (.running s₀) = _
    simp only [Machine.logIn, h₀, h₁, h₂, h₃, h₄, hread]
    rfl

/-- The copier reads values from their lines and prints them. -/
theorem copier_rounds {op : Opcode} {s : State} {tail gap : Bytes} {values : List Value}
    (hback : ∀ v ∈ values, op.ReadsBack tail v) (hgap : gap = [] ∨ gap = tail)
    (hs : s.Waits (gap ++ values.flatMap Value.line)) :
    List.Forall₂ Print.Offers (copierLog op Machine.printAt? (values.length * 5) s) values ∧
      (∀ r ∈ copierLog op Machine.readAt? (values.length * 5) s,
        r.op = op ∧ r.before.stack.back? = some .input) ∧
      (copierLog op Machine.readAt? (values.length * 5) s).length = values.length := by
  induction values generalizing s gap with
  | nil => exact ⟨.nil, List.forall_mem_nil _, rfl⟩
  | cons v values ih =>
    rw [List.forall_mem_cons] at hback
    obtain ⟨t, p, r, ht, hoffers, hasked, hlog⟩ := copier_round hback.1 hgap hs
    obtain ⟨hprints, hreads, hcount⟩ := ih hback.2 (.inr rfl) ht
    obtain ⟨hprint, hread⟩ := hlog (values.length * 5)
    rw [List.length_cons, Nat.succ_mul, hprint, hread]
    exact ⟨.cons hoffers hprints, List.forall_mem_cons.mpr ⟨hasked, hreads⟩,
      congrArg Nat.succ hcount⟩

/-- Work for the copier: the lines of some values. -/
def copierWork (op : Opcode) (values : List Value) : Work where
  program := copier op
  start := { input := .ofBytes (values.flatMap Value.line) }
  runs := [({}, values.length * 5)]

theorem copierWork_prints (op : Opcode) (values : List Value) : (copierWork op values).prints
    = copierLog op Machine.printAt? (values.length * 5) (copierWork op values).start :=
  List.append_nil _

theorem copierWork_reads (op : Opcode) (values : List Value) : (copierWork op values).session.reads
    = copierLog op Machine.readAt? (values.length * 5) (copierWork op values).start := by
  rw [Work.session, Session.reads_eq_logAll, List.nil_append]
  exact List.append_nil _

/-- The copier is offered the values to print, and asks for as many with an input handle. -/
theorem copierWork_spec {op : Opcode} {tail : Bytes} {values : List Value}
    (hback : ∀ v ∈ values, op.ReadsBack tail v) :
    List.Forall₂ Print.Offers (copierWork op values).prints values ∧
      (∀ r ∈ (copierWork op values).session.reads,
        r.op = op ∧ r.before.stack.back? = some .input) ∧
      (copierWork op values).session.reads.length = values.length := by
  rw [copierWork_prints, copierWork_reads]
  exact copier_rounds hback (.inl rfl) ⟨rfl, rfl, rfl, rfl⟩

/-- The copier relays values to itself. -/
def Relay.ofReadsBack {op : Opcode} {tail : Bytes} {values : List Value}
    (hback : ∀ v ∈ values, op.ReadsBack tail v) : Relay op values where
  writer := copierWork op values
  reader := copierWork op values
  unlimited := rfl
  offered := (copierWork_spec hback).1
  fed := by
    rw [(Work.output_of_offered rfl (copierWork_spec hback).1).2, Output.bytes_append]
    rfl
  asked := (copierWork_spec hback).2.1
  count := (copierWork_spec hback).2.2

/-! ## Integers and texts -/

/-- Printed values are read back. For every list of integers there are machines of which
one prints them and another one reads them; whatever machines these are, all prints and
reads succeed, the same integers are read, and only white space is left. For every list
of texts without newlines and without a carriage return at the end it is the same with
reads of lines, and nothing is left. -/
theorem Relay.values_come_back :
    (∀ ns : List Int32, Nonempty (Relay .readInt (ns.map .int)) ∧
      ∀ relay : Relay .readInt (ns.map .int),
        relay.Delivers ∧ ∀ b ∈ relay.left, Bytes.isSpace b = true) ∧
    ∀ texts : List Bytes, (∀ text ∈ texts, Bytes.newline ∉ text ∧ text.getLast? ≠ some 13) →
      Nonempty (Relay .readLine (texts.map .text)) ∧
      ∀ relay : Relay .readLine (texts.map .text), relay.Delivers ∧ relay.left = [] := by
  constructor
  · intro ns
    have hback : ∀ v ∈ ns.map Value.int, Opcode.readInt.ReadsBack [Bytes.newline] v :=
      List.forall_mem_map.mpr fun n _ => Opcode.readsBack_int n
    refine ⟨⟨.ofReadsBack hback⟩, fun relay => ?_⟩
    obtain ⟨hdelivers, hleft⟩ := relay.delivers hback
    refine ⟨hdelivers, ?_⟩
    rcases hleft with hleft | hleft
    · rw [hleft]
      exact List.forall_mem_nil _
    · rw [hleft]
      exact List.forall_mem_singleton.mpr rfl
  · intro texts htexts
    have hback : ∀ v ∈ texts.map Value.text, Opcode.readLine.ReadsBack [] v :=
      List.forall_mem_map.mpr fun text h =>
        Opcode.readsBack_text (htexts text h).1 (htexts text h).2
    refine ⟨⟨.ofReadsBack hback⟩, fun relay => ?_⟩
    obtain ⟨hdelivers, hleft⟩ := relay.delivers hback
    exact ⟨hdelivers, or_self_iff.mp hleft⟩

/-- A module that prints texts of its own: an empty one, one with a carriage return that
is not at its end, and one of two slashes. -/
def speaker : Module where
  name := ascii "speaker"
  constants := #[[], ascii "a\rb ", ascii "//"]
  routines := [{
    name := entryName, maxStack := 2, maxLocals := 0
    code := #[{ op := Opcode.openOutput.byte }, { op := Opcode.pushText.byte, operand := 0 },
      { op := Opcode.print.byte }, { op := Opcode.openOutput.byte },
      { op := Opcode.pushText.byte, operand := 1 }, { op := Opcode.print.byte },
      { op := Opcode.openOutput.byte }, { op := Opcode.pushText.byte, operand := 2 },
      { op := Opcode.print.byte }, { op := Opcode.ret.byte }] }]

/-- A module that reads one line and keeps it on its stack. -/
def listener : Module where
  name := ascii "listener"
  constants := #[]
  routines := [{
    name := entryName, maxStack := 1, maxLocals := 0
    code := #[{ op := Opcode.openInput.byte }, { op := Opcode.readLine.byte },
      { op := Opcode.ret.byte }] }]

def speech : List Bytes := [[], ascii "a\rb ", ascii "//"]

/-- What the speaker prints is read by three runs of the listener. -/
def speechRelay : Relay .readLine (speech.map .text) where
  writer := { program := speaker, start := {}, runs := [({}, 10)] }
  reader :=
    { program := listener, start := { input := .ofBytes (ascii "\na\rb \n//\n") }
      runs := [({}, 3), ({}, 3), ({}, 3)] }
  unlimited := rfl
  offered := by
    refine .cons ⟨?_, ?_⟩ (.cons ⟨?_, ?_⟩ (.cons ⟨?_, ?_⟩ .nil)) <;> decide +kernel
  fed := by decide +kernel
  asked := by decide +kernel
  count := by decide +kernel

theorem Relay.values_come_back_speech :
    (∀ text ∈ speech, Bytes.newline ∉ text ∧ text.getLast? ≠ some 13) ∧
      speechRelay.Delivers ∧ speechRelay.left = [] := by
  have htexts : ∀ text ∈ speech, Bytes.newline ∉ text ∧ text.getLast? ≠ some 13 := by decide
  exact ⟨htexts, (Relay.values_come_back.2 speech htexts).2 speechRelay⟩

end Stackling
