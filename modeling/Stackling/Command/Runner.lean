import Stackling.Assembly.Reader
import Stackling.Command
import Stackling.Machine
import Stackling.Module.Assemble
import Stackling.Module.Decode
import Stackling.Module.Listing
import Stackling.Path

/-!
# The machine command

Run one module, which may also be given as text assembly. Preparing a run loads
the module; concluding it reports how it went. What lies between is the work of
the machine, which may never end.
-/

namespace Stackling.Runner

variable {m : Type → Type} [Monad m] [MonadFiles m]

/-- How the command is used. -/
def usage : Bytes :=
  ascii "usage: kvm [flags] <module.kcm>\n"
    ++ ascii "  -config string\n    \tthe yaml config file\n"
    ++ ascii "  -list\n    \tprint the disassembly listing before running\n"
    ++ ascii "  -max-steps int\n    \tstop after this many instructions, 0 means no limit\n"
    ++ ascii "  -v\twhether print debug logs\n"

/-- The flags of the command. -/
def specs : List FlagSpec :=
  [⟨ascii "max-steps", .int⟩, ⟨ascii "list", .switch⟩, ⟨ascii "config", .text⟩,
    ⟨ascii "v", .switch⟩]

/-- Why no module was loaded. -/
inductive Failure where
  | file (e : FileError)
  | assembly (e : Assembly.Error)
  | assemble (e : Assemble.Error)
  | decode (e : Decode.Error)
  deriving DecidableEq, Repr

/-- The wording of a failure. -/
def Failure.message : Failure → Bytes
  | file e => e.message
  | assembly e => e.message
  | assemble e => e.message
  | decode e => e.message

/-- The module that an input holds, as text assembly or encoded. -/
def moduleOf (isText : Bool) (input : Input) : Except Failure Module :=
  if isText then
    match Assembly.read input with
    | .error e => .error (.assembly e)
    | .ok unit => unit.assemble.mapError .assemble
  else (Module.decode input).mapError .decode

/-- Load a module. -/
def load (path : Bytes) : m (Except Failure Module) := do
  match ← MonadFiles.openFile path with
  | .error e => return .error (.file e)
  | .ok input => return moduleOf (Path.isAssembly path) input

/-- A run that is about to start. -/
structure Job where
  settings : Settings
  program : Module
  deriving DecidableEq, Repr

/-- The settings of a run: those of the file, changed by flags. -/
def withFlags (s : Settings) (flags : Flags) : Settings :=
  { s with
    maxSteps := (flags.int? (ascii "max-steps")).getD s.maxSteps
    emitListing := s.emitListing || flags.isOn (ascii "list")
    logLevel := if flags.isOn (ascii "v") then ascii "debug" else s.logLevel }

/-- Understand the arguments and load the module. -/
def prepare (args : List Bytes) : m (Except CommandResult Job) := do
  match Flags.parse specs args with
  | .error e => return .error (.ofFlagError usage e)
  | .ok flags =>
    match flags.rest with
    | [path] =>
      match ← Settings.load (flags.text (ascii "config")) with
      | .error e =>
        return .error { exit := 1, stderr := ascii "[kvm]: " ++ e.message ++ ascii "\n" }
      | .ok s =>
        match ← load path with
        | .error e =>
          return .error
            { exit := 1
              stderr := ascii "[kvm]: failed to load " ++ path ++ ascii ", err: " ++ e.message
                ++ ascii "\n" }
        | .ok program => return .ok { settings := withFlags s flags, program }
    | _ => return .error (.ofUsage usage)

namespace Job

/-- The conditions of the run. -/
def limits (job : Job) : Limits := { maxSteps := job.settings.maxSteps }

/-- What is printed before the run. -/
def listing (job : Job) : Bytes :=
  if job.settings.emitListing then (job.program.listing?).getD [] ++ [Bytes.newline] else []

/-- How the run starts, or why it cannot. -/
def start (job : Job) (input : Input) : Except Outcome (Frame × State) :=
  Machine.begin job.program { input }

/-- The records of the machine. -/
def machineLog (job : Job) (outcome : Outcome) (steps : Nat) : List LogRecord :=
  match job.program.entry? with
  | none => []
  | some frame =>
    [{ level := .debug, message := ascii "machine: start"
       fields :=
        [(ascii "module", .text job.program.name), (ascii "max_stack", .number frame.maxStack),
          (ascii "max_locals", .number frame.maxLocals)] },
      { level := .debug, message := ascii "machine: stop"
        fields :=
          [(ascii "module", .text job.program.name), (ascii "steps", .number steps),
            (ascii "err", (outcome.message?).elim .none .text)] }]

/-- The record of the end of the run. -/
def finished (job : Job) (steps : Nat) : LogRecord :=
  { level := .debug, message := ascii "kvm: finished"
    fields := [(ascii "module", .text job.program.name), (ascii "steps", .number steps)] }

/-- What a run leaves behind. -/
def conclude (job : Job) (outcome : Outcome) (s : State) : CommandResult :=
  let log := Log.lines job.settings.level (job.machineLog outcome s.steps ++ [job.finished s.steps])
  let stdout := job.listing ++ s.output.bytes
  match outcome.message? with
  | none => { exit := 0, stdout, stderr := log }
  | some message =>
    { exit := 1, stdout
      stderr :=
        log ++ ascii "[kvm]: " ++ job.program.name ++ ascii " stopped after "
          ++ Decimal.ofNat s.steps ++ ascii " steps, err: " ++ message ++ ascii "\n" }

end Job

end Stackling.Runner
