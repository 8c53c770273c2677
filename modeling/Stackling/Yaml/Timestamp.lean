import Stackling.Text.Decimal

/-!
# Dates and times

A timestamp is a date of the calendar, and may go on with a time of the day:
after a letter T, the time has a zone; after spaces, it has none.
-/

namespace Stackling.Yaml.Timestamp

/-- How many days a month has. -/
def daysIn (year month : Nat) : Nat :=
  if month = 2 then
    if year % 4 = 0 && (year % 100 ≠ 0 || year % 400 = 0) then 29 else 28
  else if month = 4 || month = 6 || month = 9 || month = 11 then 30
  else 31

/-- Read a number of one or two digits, of which as many as possible are
taken. -/
def number? (s : Bytes) : Option (Nat × Bytes) :=
  let digits := (s.take 2).takeWhile Bytes.isDigit
  if digits = [] then none else some (Decimal.value digits, s.drop digits.length)

/-- Read a byte. -/
def sign? (b : UInt8) (s : Bytes) : Option Bytes :=
  if s.head? = some b then some s.tail else none

/-- Read a date, whose year has four digits. -/
def date? (s : Bytes) : Option Bytes := do
  let digits := s.takeWhile Bytes.isDigit
  guard (digits.length = 4)
  let s ← sign? 45 (s.drop 4)
  let (month, s) ← number? s
  let (day, s) ← number? (← sign? 45 s)
  guard (1 ≤ month ∧ month ≤ 12 ∧ 1 ≤ day ∧ day ≤ daysIn (Decimal.value digits) month)
  return s

/-- Read a fraction of a second, if there is one. -/
def fraction (s : Bytes) : Bytes :=
  match s with
  | mark :: digit :: _ =>
    if (mark = 46 || mark = 44) && Bytes.isDigit digit then s.tail.dropWhile Bytes.isDigit else s
  | _ => s

/-- Read a time of the day. -/
def time? (s : Bytes) : Option Bytes := do
  let (hour, s) ← number? s
  let (minute, s) ← number? (← sign? 58 s)
  let (second, s) ← number? (← sign? 58 s)
  guard (hour < 24 ∧ minute < 60 ∧ second < 60)
  return fraction s

/-- Whether a text is a zone: the letter Z, or the hours and minutes by which
it differs from that. -/
def isZone (s : Bytes) : Bool :=
  match s with
  | [90] => true
  | [sign, a, b, 58, c, d] =>
    (sign = 43 || sign = 45) && [a, b, c, d].all Bytes.isDigit
      && Decimal.value [a, b] ≤ 24 && Decimal.value [c, d] ≤ 60
  | _ => false

/-- Whether a text is a timestamp. -/
def isTimestamp (text : Bytes) : Bool :=
  match date? text with
  | none => false
  | some [] => true
  | some (b :: s) =>
    if b = 84 || b = 116 then (time? s).any isZone
    else b = 32 && time? (s.dropWhile (· = 32)) = some []

end Stackling.Yaml.Timestamp
