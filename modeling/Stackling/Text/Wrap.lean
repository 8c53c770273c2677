import Stackling.Text.Style

/-!
# Wrapping

Texts that are put into a given number of columns. Words are put side by side
as long as they fit; a word that does not fit is broken after any character. A
line is full when it is exactly as wide as it may be, so a character of two
columns may make a line too wide, and such a line never becomes full. Bytes that
are not UTF-8 become the replacement character where a word is broken.

A style that is on when a line ends is switched off there and on again in the
next line.
-/

namespace Stackling.Wrap

/-- Tabs are shown as four spaces. -/
def expandTabs (text : Bytes) : Bytes :=
  text.flatMap fun b => if b = 9 then ascii "    " else [b]

/-- The lines of a text, of which there is at least one. -/
def lines (text : Bytes) : List Bytes :=
  let (complete, last) := Bytes.splitLines text
  complete.map List.dropLast ++ [last]

/-- Lines that are being written. -/
structure Pen where
  /-- The lines before the current one, the last of them first. -/
  done : List Bytes := []
  /-- The current line. -/
  line : Bytes := []
  /-- How many columns of the current line are used up. -/
  used : Nat := 0

namespace Pen

/-- End the line and start a new one, in the style that the given sequence
switches on. -/
def newline (pen : Pen) (opening : Bytes) : Pen :=
  let line := if opening = [] then pen.line else pen.line ++ Style.reset
  { done := line :: pen.done, line := opening }

/-- Write a piece that takes the given number of columns. -/
def write (pen : Pen) (piece : Bytes) (columns : Nat) : Pen :=
  { pen with line := pen.line ++ piece, used := pen.used + columns }

/-- All lines. -/
def all (pen : Pen) : List Bytes := (pen.line :: pen.done).reverse

end Pen

/-- A word that is being broken: the pen, the control sequence that was seen
last, and whether it is still being read. -/
structure Breaking where
  pen : Pen
  opening : Bytes
  inSequence : Bool := false

/-- Write a character of a word, on a new line if the current one is full.
Control sequences take no columns. -/
def Breaking.put (width : Nat) (b : Breaking) (r : Utf8.Rune) : Breaking :=
  let starts := r.code = Style.escape
  let inSequence := b.inSequence || starts
  let opening := if starts then [] else b.opening
  let opening := if inSequence then opening ++ r.valid else opening
  let pen := if b.pen.used = width && !inSequence then b.pen.newline opening else b.pen
  { pen := pen.write r.valid (if inSequence then 0 else Columns.ofCode r.code)
    opening := if opening = Style.reset then [] else opening
    inSequence := inSequence && r.code ≠ 0x6D }

/-- Words that are being put into lines. -/
structure Writing where
  pen : Pen := {}
  /-- The style after the words so far. -/
  style : Style := {}
  /-- The sequence that switched on the style that was seen last. -/
  opening : Bytes := []

/-- Write a word with a space before it unless it starts the line. A word that
does not fit is broken. -/
def Writing.word (width : Nat) (w : Writing) (word : Bytes) : Writing :=
  let style := w.style.after word
  let opening := if style.opening = [] then w.opening else style.opening
  let pen := if w.pen.used = 0 then w.pen else w.pen.write [32] 1
  let columns := Columns.width word
  if pen.used + columns ≤ width then { pen := pen.write word columns, style, opening }
  else
    let b := (Utf8.runes word).foldl (Breaking.put width) { pen, opening }
    { pen := b.pen, style, opening }

/-- Write words; a full line is ended if more words follow. -/
def Writing.words (width : Nat) (w : Writing) : List Bytes → Writing
  | [] => w
  | [word] => w.word width word
  | word :: words =>
    let w := w.word width word
    Writing.words width
      (if w.pen.used = width then { w with pen := w.pen.newline w.opening } else w) words

/-- The lines that were written, at the end of which the style is switched
off. -/
def Writing.finish (w : Writing) : List Bytes :=
  if w.opening = [] ∨ w.opening = Style.reset ∨ Style.reset.isSuffixOf w.pen.line then w.pen.all
  else (w.pen.write Style.reset 0).all

/-- Put a text into lines of `width` columns, broken between words where that is
possible. A text that fits as it stands is kept. -/
def byWords (width : Nat) (text : Bytes) : List Bytes :=
  let text := expandTabs text
  if Columns.width text ≤ width then lines text
  else (lines text).flatMap fun line => (Writing.words width {} (Blank.words line)).finish

end Stackling.Wrap
