import Stackling.Text.Blank
import Stackling.Text.Columns
import Stackling.Text.Decimal

/-!
# Styles

A terminal shows text in a style, which control sequences change. A sequence
holds codes: most of them switch something on, some switch things off again,
and zero switches everything off. A style is known by the codes that are on.
-/

namespace Stackling

/-- The codes that are switched on, in ascending order. -/
structure Style where
  codes : List Int := []
  deriving DecidableEq, Repr

namespace Style

/-- The escape character, which starts a control sequence. -/
def escape : Nat := 0x1B

/-- The sequence that switches everything off. -/
def reset : Bytes := ascii "\x1b[0m"

/-- Put a code in its place. -/
def insert (code : Int) : List Int → List Int
  | [] => [code]
  | c :: cs =>
    if code < c then code :: c :: cs else if code = c then c :: cs else c :: insert code cs

/-- The style after one more code. -/
def apply (style : Style) (code : Int) : Style :=
  let off (codes : List Int) : Style := ⟨style.codes.filter (!codes.contains ·)⟩
  if code = 0 then {}
  else if code = 22 then off [1, 2]
  else if code = 23 then off [3]
  else if code = 24 then off [4]
  else if code = 25 then off [5, 6]
  else if code = 27 then off [7]
  else if code = 29 then off [9]
  else ⟨insert code style.codes⟩

/-- The style after a sequence, which is given without its first two characters
and its last one. -/
def applyAll (style : Style) (body : Bytes) : Style :=
  ((body.splitOn 59).filterMap fun code => Decimal.toInt? (Blank.trim code)).foldl apply style

/-- A style while a text is read: the style, the sequence that is being read,
and its characters so far, the last one first. -/
structure Reading where
  style : Style
  state : Columns.Sequence := .none
  seen : List Utf8.Rune := []

/-- Read one character. -/
def Reading.next (r : Reading) (rune : Utf8.Rune) : Reading :=
  let state := r.state.next rune.code
  if state ≠ .none then { r with state, seen := rune :: r.seen }
  else if r.state = .none then r
  else
    let body := (r.seen.reverse.drop 2).flatMap Utf8.Rune.valid
    { style := r.style.applyAll body }

/-- The style after a text. -/
def after (style : Style) (text : Bytes) : Style :=
  ((Utf8.runes text).foldl Reading.next { style }).style

/-- The sequence that switches a style on; none for the usual style. -/
def opening (style : Style) : Bytes :=
  if style.codes = [] then []
  else
    ascii "\x1b[" ++ ((style.codes.map Decimal.ofInt).intersperse (ascii ";")).flatten ++ ascii "m"

end Style

end Stackling
