import Stackling.Command.Flags
import Stackling.Files
import Stackling.Settings.Overlay

/-!
# Commands

What the two commands have in common: what they leave behind, and how they load
their settings.
-/

namespace Stackling

/-- What a command leaves behind besides files. -/
structure CommandResult where
  /-- The exit status; zero means success. -/
  exit : Nat
  stdout : Bytes := []
  stderr : Bytes := []
  deriving DecidableEq, Repr

/-- Why settings could not be loaded. -/
inductive LoadError where
  | file (e : FileError)
  | content (path : Bytes) (e : SettingsError)
  deriving DecidableEq, Repr

/-- The wording of an error. -/
def LoadError.message : LoadError → Bytes
  | file e => ascii "config: " ++ e.message
  | content path e => ascii "config " ++ path ++ ascii ": " ++ e.message

/-- Load settings from a file over the usual ones; no path means no file. -/
def Settings.load {m : Type → Type} [Monad m] [MonadFiles m] (path : Bytes) :
    m (Except LoadError Settings) := do
  if path = [] then return .ok {}
  match ← MonadFiles.openFile path with
  | .error e => return .error (.file e)
  | .ok input =>
    match ({} : Settings).overlay input with
    | (s, none) => return .ok s
    | (_, some e) => return .error (.content path e)

namespace CommandResult

/-- The result of arguments that are not understood. -/
def ofFlagError (usage : Bytes) (e : FlagError) : CommandResult :=
  { exit := if e = .help then 0 else 2, stderr := e.line ++ usage }

/-- The result of a wrong number of arguments. -/
def ofUsage (usage : Bytes) : CommandResult := { exit := 2, stderr := usage }

end CommandResult

end Stackling
