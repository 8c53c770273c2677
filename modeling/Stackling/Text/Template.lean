import Stackling.Text.Decimal
import Stackling.Text.Utf8

/-!
# Templates without values

A title is filled in as a template: a percent sign starts a placeholder, and two
of them stand for one percent sign. Titles are never given values to fill in, so
every placeholder is shown as one that lacks its value.

A placeholder is a percent sign, flags, a width, a precision and a verb. Width
and precision may be digits or a star, and a number in brackets may choose a
value before each of width, precision and verb.
-/

namespace Stackling.Template

/-- A mark between width and precision. -/
def isFlag (b : UInt8) : Bool := b == 35 || b == 48 || b == 43 || b == 45 || b == 32

/-- Whether a number has too many digits to be taken for one. -/
def tooLong (digits : Bytes) : Bool := 1000000 < Decimal.value digits.dropLast

/-- Pass over a number. A number that is too long swallows the rest of the
template. The flag tells whether there was a number. -/
def passNumber (s : Bytes) : Bool × Bytes :=
  let digits := s.takeWhile Bytes.isDigit
  if tooLong digits then (false, []) else (digits ≠ [], s.dropWhile Bytes.isDigit)

/-- What brackets in a placeholder say. -/
inductive Choice where
  /-- There are no brackets. -/
  | absent
  /-- The brackets hold a number; there is no value of that number. -/
  | numbered
  /-- The brackets are malformed. -/
  | malformed
  deriving DecidableEq

/-- Pass over brackets that choose a value. -/
def passChoice (s : Bytes) : Choice × Bytes :=
  if s.head? ≠ some 91 then (.absent, s)
  else
    let inner := s.tail.takeWhile (· ≠ 93)
    if s.length < 3 || inner.length + 1 = s.length then (.malformed, s.tail)
    else
      let rest := s.drop (inner.length + 2)
      if (Decimal.toNat? inner).isSome && !tooLong inner then (.numbered, rest)
      else (.malformed, rest)

/-- A placeholder that is being read. -/
structure Placeholder where
  /-- What is shown for it so far. -/
  shown : Bytes := []
  /-- Whether it chooses its value in a way that cannot work. -/
  badChoice : Bool := false
  /-- Whether a choice has just been read. -/
  chosen : Bool := false
  rest : Bytes

namespace Placeholder

/-- Read brackets that choose a value. -/
def choice (p : Placeholder) : Placeholder :=
  match passChoice p.rest with
  | (.absent, rest) => { p with chosen := false, rest }
  | (.numbered, rest) => { p with badChoice := true, chosen := true, rest }
  | (.malformed, rest) => { p with badChoice := true, chosen := false, rest }

/-- Read a width. -/
def width (p : Placeholder) : Placeholder :=
  if p.rest.head? = some 42 then
    { p with shown := p.shown ++ ascii "%!(BADWIDTH)", chosen := false, rest := p.rest.tail }
  else
    let (present, rest) := passNumber p.rest
    { p with badChoice := p.badChoice || (p.chosen && present), rest }

/-- Read a precision. A point that ends the template starts none. -/
def precision (p : Placeholder) : Placeholder :=
  if p.rest.head? ≠ some 46 ∨ p.rest.length = 1 then p
  else
    let p := { p with badChoice := p.badChoice || p.chosen, rest := p.rest.tail }.choice
    if p.rest.head? = some 42 then
      { p with shown := p.shown ++ ascii "%!(BADPREC)", chosen := false, rest := p.rest.tail }
    else { p with rest := (passNumber p.rest).2 }

/-- Read the verb, which ends the placeholder. -/
def verb (p : Placeholder) : Bytes × Bytes :=
  match p.rest with
  | [] => (p.shown ++ ascii "%!(NOVERB)", [])
  | a :: s =>
    let r := Utf8.first a s
    let rest := (a :: s).drop r.bytes.length
    if a = 37 then (p.shown ++ [37], rest)
    else
      (p.shown ++ ascii "%!" ++ r.valid
        ++ (if p.badChoice then ascii "(BADINDEX)" else ascii "(MISSING)"), rest)

end Placeholder

/-- What is shown for the placeholder that a percent sign before `s` starts, and
the rest of the template. -/
def placeholder (s : Bytes) : Bytes × Bytes :=
  let p := { rest := s.dropWhile isFlag : Placeholder }.choice.width.precision
  (if p.chosen then p else p.choice).verb

/-- Fill in a template after passing over `skip` bytes. -/
def fillFrom : Nat → Bytes → Bytes
  | _, [] => []
  | skip + 1, _ :: s => fillFrom skip s
  | 0, a :: s =>
    if a = 37 then
      let (shown, rest) := placeholder s
      shown ++ fillFrom (s.length - rest.length) s
    else a :: fillFrom 0 s

/-- A template as it is shown without values. -/
def fill (template : Bytes) : Bytes := fillFrom 0 template

end Stackling.Template
