import Stackling.Log
import Stackling.Text.Quoted
import Stackling.Yaml.Problem
import Stackling.Yaml.Scalar

/-!
# Settings

What both commands can be told in a file, and what may be wrong with such a
file.
-/

namespace Stackling

/-- The settings of the commands. -/
structure Settings where
  outputDir : Bytes := []
  emitText : Bool := false
  emitListing : Bool := false
  emitSymbols : Bool := false
  logLevel : Bytes := ascii "info"
  maxSteps : Int := 10000000
  deriving DecidableEq, Repr

/-- The type of a setting. -/
inductive SettingType where
  | text
  | bool
  | int
  /-- All settings together. -/
  | all
  deriving DecidableEq, Repr

/-- The name of a type. -/
def SettingType.name : SettingType → Bytes
  | text => ascii "string"
  | bool => ascii "bool"
  | int => ascii "int"
  | all => ascii "config.Config"

/-- A part of a file that cannot be understood. -/
inductive SettingIssue where
  /-- A value of another type; collections are shown without their content. -/
  | mismatch (line : Nat) (tag value : Bytes) (type : SettingType)
  | unknownField (line : Nat) (name : Bytes)
  | repeatedField (line : Nat) (name : Bytes)
  | duplicateKey (line : Nat) (key : Bytes) (first : Nat)
  deriving DecidableEq, Repr

namespace SettingIssue

/-- A value as it is shown after its tag; a long one is cut. Values with the tag
of a collection stand without quotes. -/
def excerpt (tag value : Bytes) : Bytes :=
  if tag = ascii "!!seq" ∨ tag = ascii "!!map" then value
  else if 10 < value.length then ascii " `" ++ value.take 7 ++ ascii "...`"
  else ascii " `" ++ value ++ ascii "`"

/-- The wording of an issue. -/
def message : SettingIssue → Bytes
  | mismatch line tag value type =>
    ascii "line " ++ Decimal.ofNat line ++ ascii ": cannot unmarshal " ++ tag
      ++ excerpt tag value ++ ascii " into " ++ type.name
  | unknownField line name =>
    ascii "line " ++ Decimal.ofNat line ++ ascii ": field " ++ name ++ ascii " not found in type "
      ++ SettingType.all.name
  | repeatedField line name =>
    ascii "line " ++ Decimal.ofNat line ++ ascii ": field " ++ name ++ ascii " already set in type "
      ++ SettingType.all.name
  | duplicateKey line key first =>
    ascii "line " ++ Decimal.ofNat line ++ ascii ": mapping key " ++ Quoted.quote key
      ++ ascii " already defined at line " ++ Decimal.ofNat first

end SettingIssue

/-- Why a file is not accepted. -/
inductive SettingsError where
  /-- The file is not a document. -/
  | form (e : Yaml.Error)
  /-- A scalar of the file has no value. -/
  | scalar (e : Yaml.ScalarError)
  /-- Entries are to be taken from something that has none. -/
  | merge
  /-- An alias stands inside the node that it stands for. -/
  | selfReference (name : Bytes)
  /-- Almost all of the file is reached through aliases. -/
  | excessiveAliases
  /-- Parts of the file could not be understood. -/
  | issues (list : List SettingIssue)
  /-- There is no such level. -/
  | level (name : Bytes)
  /-- The number of steps is below zero. -/
  | negativeSteps (n : Int)
  deriving DecidableEq, Repr

/-- The wording of an error. -/
def SettingsError.message : SettingsError → Bytes
  | form e => e.message
  | scalar e => e.message
  | merge => ascii "yaml: map merge requires map or sequence of maps as the value"
  | selfReference name => ascii "yaml: anchor '" ++ name ++ ascii "' value contains itself"
  | excessiveAliases => ascii "yaml: document contains excessive aliasing"
  | issues list =>
    ascii "yaml: unmarshal errors:" ++ list.flatMap fun i => ascii "\n  " ++ i.message
  | level name => ascii "unknown log_level " ++ Quoted.quote name
  | negativeSteps n => ascii "max_steps must not be negative, got " ++ Decimal.ofInt n

namespace Settings

/-- The level of the log; the usual one if the setting names none. -/
def level (s : Settings) : LogLevel := (LogLevel.ofName? s.logLevel).getD .info

/-- What is wrong with settings. -/
def problem? (s : Settings) : Option SettingsError :=
  if (LogLevel.ofName? s.logLevel).isNone then some (.level s.logLevel)
  else if s.maxSteps < 0 then some (.negativeSteps s.maxSteps)
  else none

end Settings

end Stackling
