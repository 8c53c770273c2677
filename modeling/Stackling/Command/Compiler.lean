import Stackling.Build
import Stackling.Command
import Stackling.Module.Listing
import Stackling.Path
import Stackling.SymbolTable.Listing

/-!
# The compiler command

Compile one program text. The result is written to a temporary file beside the
target, which gets its name only after everything else went well; whatever goes
wrong, no other file is changed.
-/

namespace Stackling.Compiler

variable {m : Type → Type} [Monad m] [MonadFiles m]

/-- How the command is used. -/
def usage : Bytes :=
  ascii "usage: kcc [flags] <input.kc>\n"
    ++ ascii "  -S\twrite text assembly instead of a binary module\n"
    ++ ascii "  -config string\n    \tthe yaml config file\n"
    ++ ascii "  -list\n    \tprint the disassembly listing\n"
    ++ ascii "  -o string\n"
    ++ ascii "    \tthe output path, default is <program name>.kcm next to the input\n"
    ++ ascii "  -symbols\n    \tprint the symbol table\n"
    ++ ascii "  -v\twhether print debug logs\n"

/-- The flags of the command. -/
def specs : List FlagSpec :=
  [⟨ascii "o", .text⟩, ⟨ascii "S", .switch⟩, ⟨ascii "symbols", .switch⟩, ⟨ascii "list", .switch⟩,
    ⟨ascii "config", .text⟩, ⟨ascii "v", .switch⟩]

/-- Why nothing was compiled. -/
inductive Failure where
  | file (e : FileError)
  /-- The program text could not be opened. -/
  | source (path : Bytes) (e : FileError)
  | build (path : Bytes) (e : BuildError)
  /-- The result could not be written. -/
  | write (path : Bytes) (e : FileError)
  /-- The code could not be assembled for the listing. -/
  | listing (e : Assemble.Error)
  deriving DecidableEq, Repr

/-- The wording of a failure. -/
def Failure.message : Failure → Bytes
  | file e => e.message
  | source path e => path ++ ascii ": " ++ e.message
  | build path e => path ++ ascii ": " ++ e.message
  | write path e => path ++ ascii ": persist: " ++ e.message
  | listing e => e.message

/-- Build the program text of a file. The code is handed to `persist`, which tells
whether it failed. -/
def compileFile (path : Bytes) (persist : AsmUnit → m (Option Failure)) :
    m (List LogRecord × Except Failure Compiled) := do
  match ← MonadFiles.openFile path with
  | .error e => return ([Build.parsing (some path)], .error (.source path e))
  | .ok input =>
    match Build.compile (some path) input with
    | (log, .error e) => return (log, .error (.build path e))
    | (log, .ok c) =>
      match ← persist c.unit with
      | some e => return (log, .error e)
      | none => return (log, .ok c)

/-- Write pieces to the end of a file, up to the first that is refused. -/
def appendAll (path : Bytes) : List Bytes → m (Option FileError)
  | [] => return none
  | piece :: pieces => do
    match ← MonadFiles.appendFile path piece with
    | .error e => return some e
    | .ok () => appendAll path pieces

/-- How a compilation went. -/
structure Report where
  stdout : Bytes := []
  log : List LogRecord := []
  failure : Option Failure := none

/-- What is compiled and how. -/
structure Job where
  settings : Settings
  /-- The path of the result, or nothing if it is to be chosen. -/
  output : Bytes
  /-- The path of the program text. -/
  path : Bytes
  deriving DecidableEq, Repr

namespace Job

/-- The directory of the result. -/
def dir (job : Job) : Bytes :=
  if job.output ≠ [] then Path.dir job.output
  else if job.settings.outputDir ≠ [] then job.settings.outputDir
  else Path.dir job.path

/-- The form of the result. -/
def sink (job : Job) : Sink := if job.settings.emitText then .text else .binary

/-- The suffix of a result. -/
def suffix (job : Job) : Bytes := if job.settings.emitText then ascii ".kca" else ascii ".kcm"

/-- The path of the result for a program of the given name. -/
def target (job : Job) (program : Bytes) : Bytes :=
  if job.output ≠ [] then job.output else Path.join job.dir (program ++ job.suffix)

/-- What is printed about a program. -/
def printed (job : Job) (c : Compiled) : Bytes × Option Failure :=
  let symbols :=
    if job.settings.emitSymbols then
      SymbolTable.listing c.unit.name c.symbols.vars ++ [Bytes.newline]
    else []
  if job.settings.emitListing then
    match c.unit.assemble with
    | .error e => (symbols, some (.listing e))
    | .ok m => (symbols ++ (m.listing?).getD [] ++ [Bytes.newline], none)
  else (symbols, none)

/-- The record of a success. -/
def compiled (job : Job) (target : Bytes) (c : Compiled) : LogRecord :=
  { level := .info, message := ascii "kcc: compiled"
    fields :=
      [(ascii "source", .text job.path), (ascii "output", .text target),
        (ascii "variables", .number c.symbols.vars.length),
        (ascii "instructions", .number c.unit.instructionCount)] }

/-- Write a unit to a file. -/
def persist (job : Job) (temp : Bytes) (unit : AsmUnit) : m (Option Failure) := do
  let writing := job.sink.writing unit
  match writing.failure, ← appendAll temp writing.pieces with
  | some e, _ => return some (.build job.path (.persist e))
  | none, some e => return some (.write job.path e)
  | none, none => return none

/-- Compile into a temporary file, which is closed afterwards in any case. -/
def build (job : Job) (temp : Bytes) : m (List LogRecord × Except Failure Compiled) := do
  let (log, result) ← compileFile job.path (job.persist temp)
  match result, ← MonadFiles.closeFile temp with
  | .error e, _ => return (log, .error e)
  | .ok _, .error e => return (log, .error (.file e))
  | .ok c, .ok () => return (log, .ok c)

/-- Compile into a temporary file, print what is asked for, and put the file in
its place. -/
def finish (job : Job) (temp : Bytes) : m Report := do
  match ← job.build temp with
  | (log, .error e) => return { log, failure := some e }
  | (log, .ok c) =>
    match job.printed c with
    | (stdout, some e) => return { stdout, log, failure := some e }
    | (stdout, none) =>
      let target := job.target c.unit.name
      match ← MonadFiles.renameFile temp target with
      | .error e => return { stdout, log, failure := some (.file e) }
      | .ok () => return { stdout, log := log ++ [job.compiled target c] }

/-- Compile a program text. Also gives the path of the temporary file, if one was
created. -/
def compile (job : Job) : m (Option Bytes × Report) := do
  match ← MonadFiles.createTemp job.dir with
  | .error e => return (none, { failure := some (.file e) })
  | .ok temp => return (some temp, ← job.finish temp)

/-- Compile a program text, and remove the temporary file. It has gone if the
compilation succeeded, and nothing is said if it cannot be removed. -/
def run (job : Job) : m Report := do
  match ← job.compile with
  | (none, report) => return report
  | (some temp, report) =>
    let _ ← MonadFiles.removeFile temp
    return report

end Job

/-- The settings of a run: those of the file, changed by flags. -/
def withFlags (s : Settings) (flags : Flags) : Settings :=
  { s with
    emitText := s.emitText || flags.isOn (ascii "S")
    emitSymbols := s.emitSymbols || flags.isOn (ascii "symbols")
    emitListing := s.emitListing || flags.isOn (ascii "list")
    logLevel := if flags.isOn (ascii "v") then ascii "debug" else s.logLevel }

/-- The record of a path without one of the usual suffixes. -/
def suffixWarning (path : Bytes) : LogRecord :=
  { level := .warn, message := ascii "kcc: unexpected source file suffix"
    fields := [(ascii "path", .text path)] }

/-- What a compilation leaves behind. -/
def conclude (job : Job) (report : Report) : CommandResult :=
  let warning := if Path.isSource job.path then [] else [suffixWarning job.path]
  let log := Log.lines job.settings.level (warning ++ report.log)
  match report.failure with
  | none => { exit := 0, stdout := report.stdout, stderr := log }
  | some e =>
    { exit := 1, stdout := report.stdout
      stderr :=
        log ++ ascii "[kcc]: failed to compile " ++ job.path ++ ascii ", err: " ++ e.message
          ++ ascii "\n" }

/-- Understand the arguments and load the settings. -/
def prepare (args : List Bytes) : m (Except CommandResult Job) := do
  match Flags.parse specs args with
  | .error e => return .error (.ofFlagError usage e)
  | .ok flags =>
    match flags.rest with
    | [path] =>
      match ← Settings.load (flags.text (ascii "config")) with
      | .error e =>
        return .error { exit := 1, stderr := ascii "[kcc]: " ++ e.message ++ ascii "\n" }
      | .ok s =>
        return .ok { settings := withFlags s flags, output := flags.text (ascii "o"), path }
    | _ => return .error (.ofUsage usage)

/-- The command. -/
def command (args : List Bytes) : m CommandResult := do
  match ← prepare args with
  | .error result => return result
  | .ok job => return conclude job (← job.run)

end Stackling.Compiler
