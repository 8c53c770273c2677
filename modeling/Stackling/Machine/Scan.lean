import Stackling.Input
import Stackling.Text.Decimal
import Stackling.Text.Quoted

/-!
# Reading program input

The two ways in which a running program reads. An integer is the next word
between white space; the white space after it stays unread, and the word is
gone even if it is no integer. A line is everything up to the next newline or
the end; its newline, and a carriage return before it, are not part of the
text.
-/

namespace Stackling.Scan

/-- Why an input does not yield what a program asks for. -/
inductive Fault where
  /-- The input ended; the message tells how. -/
  | ended (message : Bytes)
  /-- The next word is no integer. -/
  | notInteger (word : Bytes)
  deriving DecidableEq, Repr

/-- The wording of a fault. -/
def Fault.message : Fault → Bytes
  | ended message => message ++ ascii ": bad input"
  | notInteger word => ascii "not an integer: " ++ Quoted.quote word ++ ascii ": bad input"

/-- A byte that may be part of a word. -/
def isWordByte (b : UInt8) : Bool := !Bytes.isSpace b

/-- Take the next word. A word that the end of the input cuts off is a word
only if the input ends well. -/
def word (input : Input) : Input × Except Fault Bytes :=
  let text := input.unread.dropWhile Bytes.isSpace
  let token := text.takeWhile isWordByte
  let rest := text.dropWhile isWordByte
  let after := { input with unread := rest }
  if token = [] ∨ (rest = [] ∧ input.failure.isSome) then (after, .error (.ended input.ending))
  else (after, .ok token)

/-- Take the next word and read it as an integer. -/
def integer (input : Input) : Input × Except Fault Int32 :=
  match word input with
  | (after, .error fault) => (after, .error fault)
  | (after, .ok token) =>
    match Decimal.toInt32? token with
    | some n => (after, .ok n)
    | none => (after, .error (.notInteger token))

/-- A byte that does not end a line. -/
def isLineByte (b : UInt8) : Bool := b != Bytes.newline

/-- A line without the carriage return at its end. -/
def dropReturn (line : Bytes) : Bytes :=
  if line.getLast? = some 13 then line.dropLast else line

/-- Take the rest of the current line. An empty rest is a line only if a
newline ends it; a rest that no newline ends is a line only if the input ends
well. -/
def line (input : Input) : Input × Except Fault Bytes :=
  let text := input.unread.takeWhile isLineByte
  match input.unread.dropWhile isLineByte with
  | _ :: rest => ({ input with unread := rest }, .ok (dropReturn text))
  | [] =>
    let after := { input with unread := [] }
    if text = [] ∨ input.failure.isSome then (after, .error (.ended input.ending))
    else (after, .ok (dropReturn text))

end Stackling.Scan
