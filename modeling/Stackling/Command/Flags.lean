import Stackling.Text.Numeral
import Stackling.Text.Quoted

/-!
# Flags

The arguments of a command: flags first, then all others. A flag starts with
one or two minus signs. Its value follows an equals sign or is the next
argument; a flag that switches something needs no value. Two minus signs alone
end the flags.
-/

namespace Stackling

/-- What a flag takes. -/
inductive FlagKind where
  | switch
  | text
  | int
  deriving DecidableEq, Repr

/-- A flag of a command. -/
structure FlagSpec where
  name : Bytes
  kind : FlagKind
  deriving DecidableEq, Repr

/-- The value of a flag. -/
inductive FlagValue where
  | switch (on : Bool)
  | text (bytes : Bytes)
  | int (n : Int)
  deriving DecidableEq, Repr

/-- Arguments that were understood. -/
structure Flags where
  /-- The flags in the order in which they were given. -/
  values : List (Bytes × FlagValue)
  /-- All other arguments. -/
  rest : List Bytes
  deriving DecidableEq, Repr

/-- Why arguments are not understood. -/
inductive FlagError where
  /-- The usage was asked for. -/
  | help
  | form (argument : Bytes)
  | unknown (name : Bytes)
  | noValue (name : Bytes)
  | switchValue (value name : Bytes)
  | value (value name : Bytes) (e : Numeral.Error)
  deriving DecidableEq, Repr

namespace FlagError

/-- The words for a numeral that is refused. -/
def reason : Numeral.Error → Bytes
  | .form => ascii "parse error"
  | .range => ascii "value out of range"

/-- The line of an error; asking for the usage is none. -/
def line : FlagError → Bytes
  | help => []
  | form argument => ascii "bad flag syntax: " ++ argument ++ ascii "\n"
  | unknown name => ascii "flag provided but not defined: -" ++ name ++ ascii "\n"
  | noValue name => ascii "flag needs an argument: -" ++ name ++ ascii "\n"
  | switchValue v name =>
    ascii "invalid boolean value " ++ Quoted.quote v ++ ascii " for -" ++ name
      ++ ascii ": parse error\n"
  | value v name e =>
    ascii "invalid value " ++ Quoted.quote v ++ ascii " for flag -" ++ name ++ ascii ": "
      ++ reason e ++ ascii "\n"

end FlagError

namespace Flags

/-- The words for on. -/
def onWords : List Bytes :=
  [ascii "1", ascii "t", ascii "T", ascii "TRUE", ascii "true", ascii "True"]

/-- The words for off. -/
def offWords : List Bytes :=
  [ascii "0", ascii "f", ascii "F", ascii "FALSE", ascii "false", ascii "False"]

/-- The value that a flag is given by a text. -/
def readValue (spec : FlagSpec) (text : Bytes) : Except FlagError FlagValue :=
  match spec.kind with
  | .switch =>
    if onWords.contains text then .ok (.switch true)
    else if offWords.contains text then .ok (.switch false)
    else .error (.switchValue text spec.name)
  | .text => .ok (.text text)
  | .int =>
    match Numeral.integer text with
    | .ok n => .ok (.int n)
    | .error e => .error (.value text spec.name e)

/-- What an argument is. -/
inductive Shape where
  /-- Not a flag. -/
  | other
  /-- The end of the flags. -/
  | stop
  | malformed
  /-- A flag and the value that is written with it. -/
  | flag (name : Bytes) (value : Option Bytes)
  deriving DecidableEq, Repr

/-- The shape of the text after the minus signs of a flag. -/
def named (text : Bytes) : Shape :=
  match text with
  | [] => .malformed
  | a :: s =>
    if a = 45 || a = 61 then .malformed
    else
      match s.dropWhile (· ≠ 61) with
      | [] => .flag text none
      | _ :: value => .flag (a :: s.takeWhile (· ≠ 61)) (some value)

/-- The shape of an argument. -/
def shape : Bytes → Shape
  | [45, 45] => .stop
  | 45 :: 45 :: text => named text
  | 45 :: a :: text => named (a :: text)
  | _ => .other

/-- The flags with one more flag in front. -/
def cons (name : Bytes) (value : FlagValue) (flags : Flags) : Flags :=
  { flags with values := (name, value) :: flags.values }

/-- The problem of a flag that the command does not have. -/
def unknown (name : Bytes) : FlagError :=
  if name = ascii "help" ∨ name = ascii "h" then .help else .unknown name

/-- Understand the arguments of a command that has the given flags. -/
def parse (specs : List FlagSpec) : List Bytes → Except FlagError Flags
  | [] => .ok { values := [], rest := [] }
  | argument :: rest =>
    match shape argument with
    | .other => .ok { values := [], rest := argument :: rest }
    | .stop => .ok { values := [], rest }
    | .malformed => .error (.form argument)
    | .flag name value =>
      match specs.find? fun spec => spec.name == name with
      | none => .error (unknown name)
      | some spec =>
        match value, spec.kind, rest with
        | some text, _, rest => do
          let v ← readValue spec text
          return (← parse specs rest).cons name v
        | none, .switch, rest => do return (← parse specs rest).cons name (.switch true)
        | none, _, [] => .error (.noValue name)
        | none, _, text :: rest => do
          let v ← readValue spec text
          return (← parse specs rest).cons name v

/-- The value of a flag; the last one counts. -/
def get? (flags : Flags) (name : Bytes) : Option FlagValue := flags.values.reverse.lookup name

/-- Whether a switch is on. -/
def isOn (flags : Flags) (name : Bytes) : Bool := flags.get? name == some (.switch true)

/-- The text of a flag; it is empty if the flag is not given. -/
def text (flags : Flags) (name : Bytes) : Bytes :=
  match flags.get? name with
  | some (.text bytes) => bytes
  | _ => []

/-- The number of a flag. -/
def int? (flags : Flags) (name : Bytes) : Option Int :=
  match flags.get? name with
  | some (.int n) => some n
  | _ => none

end Flags

end Stackling
