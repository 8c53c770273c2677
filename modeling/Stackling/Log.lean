import Stackling.Text.Decimal
import Stackling.Text.LetterCase
import Stackling.Text.Printable
import Stackling.Text.Quoted

/-!
# Log lines

A log record has a level, a message and named values, and is written on one
line. A text is quoted unless it can be read back without quotes.
-/

namespace Stackling

/-- How important a record is. -/
inductive LogLevel where
  | debug
  | info
  | warn
  | error
  deriving DecidableEq, Repr

namespace LogLevel

/-- The rank of a level; higher ranks are more important. -/
def rank : LogLevel → Nat
  | debug => 0
  | info => 1
  | warn => 2
  | error => 3

/-- The word for a level. -/
def name : LogLevel → Bytes
  | debug => ascii "DEBUG"
  | info => ascii "INFO"
  | warn => ascii "WARN"
  | error => ascii "ERROR"

/-- The level that a word chooses, in any letter case. No word at all chooses
the usual level. -/
def ofName? (word : Bytes) : Option LogLevel :=
  let word := LetterCase.lower word
  if word = ascii "debug" then some debug
  else if word = [] ∨ word = ascii "info" then some info
  else if word = ascii "warn" ∨ word = ascii "warning" then some warn
  else if word = ascii "error" then some error
  else none

end LogLevel

/-- A value in a log record. -/
inductive LogValue where
  | text (bytes : Bytes)
  | number (n : Int)
  /-- No value. -/
  | none
  deriving DecidableEq, Repr

/-- A log record. -/
structure LogRecord where
  level : LogLevel
  message : Bytes
  /-- Named values in the order in which they are written. -/
  fields : List (Bytes × LogValue) := []
  deriving DecidableEq, Repr

namespace Log

/-- A character that can be written without quotes. -/
def isPlain : Utf8.Rune → Bool
  | .stray _ => false
  | .scalar code _ =>
    if code < 0x80 then 0x20 < code && code ≠ 0x22 && code ≠ 0x3D
    else code ≠ Utf8.Rune.replacement && Printable.isPrintable code

/-- A text as a log line shows it. -/
def word (text : Bytes) : Bytes :=
  if text ≠ [] ∧ (Utf8.runes text).all isPlain then text else Quoted.quote text

/-- A value as a log line shows it. -/
def value : LogValue → Bytes
  | .text bytes => word bytes
  | .number n => Decimal.ofInt n
  | .none => ascii "<nil>"

/-- The line of a record. -/
def line (r : LogRecord) : Bytes :=
  ascii "level=" ++ r.level.name ++ ascii " msg=" ++ word r.message
    ++ r.fields.flatMap (fun (name, v) => 32 :: name ++ 61 :: value v)
    ++ [Bytes.newline]

/-- The lines of those records that are at least as important as the given
level. -/
def lines (level : LogLevel) (records : List LogRecord) : Bytes :=
  (records.filter fun r => level.rank ≤ r.level.rank).flatMap line

end Log

end Stackling
