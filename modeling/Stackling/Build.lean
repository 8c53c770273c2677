import Stackling.Log
import Stackling.Module.Assemble
import Stackling.Module.Encode
import Stackling.Program.Code
import Stackling.Program.Parser

/-!
# Building

From a program text to what is written for it. The text is parsed, code is
made, and the code is handed to a sink, which writes it as text assembly or as
an encoded module. A sink never sees a program that has an error. Every stage
leaves a record in the log before it starts.
-/

namespace Stackling

/-- What is done with code. -/
inductive Sink where
  /-- Write it as text assembly. -/
  | text
  /-- Assemble it and write the encoded module. -/
  | binary
  /-- Take it and write nothing. -/
  | discard
  deriving DecidableEq, Repr

/-- Why a sink could not take code. -/
inductive SinkError where
  | assemble (e : Assemble.Error)
  | encode (e : Encode.Error)
  /-- The output refused text assembly. -/
  | full
  deriving DecidableEq, Repr

/-- The wording of an error. -/
def SinkError.message : SinkError → Bytes
  | assemble e => e.message
  | encode e => e.message
  | full => Output.refusal

/-- What a sink writes for a unit. -/
structure Writing where
  /-- The pieces that it writes, one after another. -/
  pieces : List Bytes := []
  /-- Why there are no more of them, if that is not all. -/
  failure : Option SinkError := none
  /-- The module that a binary sink writes. -/
  written : Option Module := none
  deriving Repr

namespace Sink

/-- What a sink writes for a unit. -/
def writing (sink : Sink) (unit : AsmUnit) : Writing :=
  match sink with
  | text => { pieces := [unit.format] }
  | binary =>
    match unit.assemble with
    | .error e => { failure := some (.assemble e) }
    | .ok m =>
      let encoding := Encode.ofModule m
      { pieces := encoding.pieces
        failure := encoding.refusal.map fun refusal => .encode (.refused refusal)
        written := some m }
  | discard => {}

/-- The error of a sink whose output refuses a piece. -/
def refused : Sink → SinkError
  | binary => .encode .full
  | text | discard => .full

/-- Hand a unit to a sink that writes to the given output. A binary sink also
gives the module that it wrote. That there is no more to write is reported before a
refusal of the output. -/
def persist (sink : Sink) (unit : AsmUnit) (output : Output) :
    Output × Except SinkError (Option Module) :=
  let writing := sink.writing unit
  let (output, complete) := output.writeAll writing.pieces
  match writing.failure with
  | some e => (output, .error e)
  | none => (output, if complete then .ok writing.written else .error sink.refused)

theorem persist_of_assemble_error {unit : AsmUnit} {e : Assemble.Error}
    (h : unit.assemble = .error e) (output : Output) :
    binary.persist unit output = (output, .error (.assemble e)) := by
  simp [persist, writing, h, Output.writeAll]

theorem persist_of_assemble {unit : AsmUnit} {m : Module} (h : unit.assemble = .ok m)
    (output : Output) :
    binary.persist unit output
      = ((m.encode output).1, (m.encode output).2.elim (.ok (some m)) (.error <| .encode ·)) := by
  unfold persist writing Module.encode
  simp only [h]
  cases (Encode.ofModule m).refusal with
  | some refusal => rfl
  | none => cases (output.writeAll (Encode.ofModule m).pieces).2 <;> rfl

end Sink

/-- What units have been handed to, one after another. -/
structure SinkState where
  /-- All that was written. -/
  output : Output
  /-- The module that was written last. -/
  written : Option Module := none
  deriving Repr

/-- Hand one more unit to a sink. Only a module that was written takes the place
of the one before it. -/
def Sink.take (sink : Sink) (state : SinkState) (unit : AsmUnit) : SinkState × Option SinkError :=
  match sink.persist unit state.output with
  | (output, .ok written) => ({ output, written := written.or state.written }, none)
  | (output, .error e) => ({ state with output }, some e)

/-- Why a text could not be built. -/
inductive BuildError where
  | parse (e : ParseError)
  | compile (e : CompileError)
  | persist (e : SinkError)
  deriving DecidableEq, Repr

/-- The wording of an error. -/
def BuildError.message : BuildError → Bytes
  | parse e => e.message
  | compile e => e.message
  | persist e => ascii "persist: " ++ e.message

/-- What is known of a program that was built. -/
structure Built where
  compiled : Compiled
  /-- The module that a binary sink wrote. -/
  written : Option Module
  deriving Repr

namespace Build

/-- The record before parsing, with the path of the text if it has one. -/
def parsing (path : Option Bytes) : LogRecord :=
  { level := .debug, message := ascii "compiler: start parser"
    fields := path.toList.map fun p => (ascii "path", .text p) }

/-- The record before code is made. -/
def generating (p : Program) : LogRecord :=
  { level := .debug, message := ascii "compiler: start generate codes"
    fields :=
      [(ascii "program", .text p.name),
        (ascii "declarations", .number p.declarations.length),
        (ascii "statements", .number p.body.length)] }

/-- The record before code is handed to a sink. -/
def persisting (c : Compiled) : LogRecord :=
  { level := .debug, message := ascii "compiler: persist unit"
    fields :=
      [(ascii "unit", .text c.unit.name),
        (ascii "variables", .number c.symbols.vars.length),
        (ascii "slots", .number c.slots),
        (ascii "instructions", .number c.unit.instructionCount)] }

/-- Parse and compile a program text, which may have a path. The last record is
that before the code is handed to a sink. -/
def compile (path : Option Bytes) (text : Input) : List LogRecord × Except BuildError Compiled :=
  match Program.ofInput text with
  | .error e => ([parsing path], .error (.parse e))
  | .ok p =>
    match p.compile with
    | .error e => ([parsing path, generating p], .error (.compile e))
    | .ok c => ([parsing path, generating p, persisting c], .ok c)

/-- How a build went. -/
structure Report where
  log : List LogRecord
  output : Output
  result : Except BuildError Built

/-- Build a program text, which may have a path. -/
def source (path : Option Bytes) (text : Input) (sink : Sink) (output : Output) : Report :=
  match compile path text with
  | (log, .error e) => { log, output, result := .error e }
  | (log, .ok c) =>
    match sink.persist c.unit output with
    | (output, .error e) => { log, output, result := .error (.persist e) }
    | (output, .ok written) => { log, output, result := .ok { compiled := c, written } }

end Build

end Stackling
