import Stackling.SymbolTable
import Stackling.Table

/-!
# Listings of variables

The variables of a program as a table.
-/

namespace Stackling.SymbolTable

/-- The columns of a listing. Types are filled up on the left, as numbers are. -/
def columns : List Column :=
  [⟨ascii "NAME", .left⟩, ⟨ascii "TYPE", .right⟩, ⟨ascii "SLOT", .right⟩, ⟨ascii "LINE", .right⟩]

/-- The row of a variable. -/
def row (v : Variable) : List Bytes :=
  [v.name, v.type.name, Decimal.ofInt v.slot, Decimal.ofInt v.line]

/-- The variables of the named program as a table. -/
def listing (program : Bytes) (vars : List Variable) : Bytes :=
  Table.render
    { title := ascii "Symbol table of " ++ program, columns, rows := vars.map row }

end Stackling.SymbolTable
