import Stackling.Text.Template
import Stackling.Text.Wrap

/-!
# Tables

A table has a title, a row of headers and rows of cells, drawn with plain
characters. Every column is as wide as its widest cell. The title stands above
the columns and is wrapped to their width.
-/

namespace Stackling

/-- On which side a column is filled up. -/
inductive Align where
  | left
  | right
  deriving DecidableEq, Repr

/-- A column of a table. -/
structure Column where
  header : Bytes
  align : Align
  deriving DecidableEq, Repr

/-- A table. -/
structure Table where
  title : Bytes
  columns : List Column
  /-- The rows, each with a cell for every column. -/
  rows : List (List Bytes)
  deriving DecidableEq, Repr

namespace Table

/-- What a line shows after carriage returns: what follows a return is written
over the line from its start. -/
def overwrite (line : List Utf8.Rune) : List Utf8.Rune :=
  (line.foldl
    (fun (acc : List Utf8.Rune × Nat) r =>
      if r.code = 13 then (acc.1, 0)
      else (acc.1.take acc.2 ++ r :: acc.1.drop (acc.2 + 1), acc.2 + 1))
    ([], 0)).1

/-- Drop every carriage return that a newline follows. -/
def dropReturns : Bytes → Bytes
  | [] => []
  | a :: s => if a = 13 ∧ s.head? = some 10 then dropReturns s else a :: dropReturns s

/-- The lines of a cell. -/
def cellLines (cell : Bytes) : List Bytes :=
  (Wrap.lines (dropReturns (Wrap.expandTabs cell))).map fun line =>
    if line.contains 13 then (overwrite (Utf8.runes line)).flatMap Utf8.Rune.valid else line

/-- The widest of some lines. -/
def widest (lines : List Bytes) : Nat := lines.foldl (fun w line => max w (Columns.width line)) 0

/-- How wide each column is. -/
def widths (t : Table) : List Nat :=
  t.rows.foldl (fun ws row => List.zipWith (fun w cell => max w (widest (cellLines cell))) ws row)
    (t.columns.map fun c => Columns.width c.header)

/-- Fill up a text to the given width. -/
def pad (align : Align) (width : Nat) (text : Bytes) : Bytes :=
  let fill := List.replicate (width - Columns.width text) 32
  match align with
  | .left => text ++ fill
  | .right => fill ++ text

/-- A line of cells between bars. -/
def cellsLine (cells : List Bytes) : Bytes :=
  124 :: cells.flatMap fun cell => 32 :: cell ++ [32, 124]

/-- The lines of a row. Cells with fewer lines than others are filled up below. -/
def rowLines (aligns : List Align) (widths : List Nat) (row : List Bytes) : List Bytes :=
  let cells := row.map cellLines
  let height := cells.foldl (fun h lines => max h lines.length) 0
  (List.range height).map fun i =>
    cellsLine <| (List.zip aligns (List.zip widths cells)).map fun (align, width, lines) =>
      pad align width (lines.getD i [])

/-- A border with corners between the columns. -/
def border (widths : List Nat) : Bytes :=
  43 :: widths.flatMap fun w => List.replicate (w + 2) 45 ++ [43]

/-- The lines of the title and of the border above it. -/
def titleLines (title : Bytes) (widths : List Nat) : List Bytes :=
  let inner := widths.foldl (· + · + 3) 0 - 3
  (43 :: List.replicate (inner + 2) 45 ++ [43])
    :: (Wrap.byWords inner title).map fun line => cellsLine [pad .left inner (Blank.trim line)]

/-- The lines of a table. -/
def lines (t : Table) : List Bytes :=
  let ws := t.widths
  let aligns := t.columns.map (·.align)
  titleLines (Template.fill t.title) ws
    ++ [border ws]
    ++ rowLines aligns ws (t.columns.map (·.header))
    ++ [border ws]
    ++ t.rows.flatMap (rowLines aligns ws)
    ++ [border ws]

/-- A table as it is printed, without a newline at its end. -/
def render (t : Table) : Bytes := (t.lines.intersperse [Bytes.newline]).flatten

end Table

end Stackling
