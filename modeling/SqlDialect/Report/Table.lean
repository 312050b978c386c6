import SqlDialect.Decimal.Shortest
import SqlDialect.Store.Row

/-!
# Results as tables

A table has a column for each name of the first row, in the order of the names. A column is as wide as the most bytes
of its name and cells; shorter texts are filled up with spaces by their number of characters.

* `fill_length`: a filled text has at least the width of its column.
-/

namespace SqlDialect.Report

/-- Decimals are written plainly from `0.00001` up to sixteen digits before the point. -/
def decimalLayout : Decimal.Layout := ⟨-5, 15⟩

/-- A finite binary number in words. -/
def floatText (x : Float) : String := String.ofList (decimalLayout.writeBits x.toBits.toNat)

/-- A value in a cell of a table. -/
def cellText : Value → String
  | .null => "NULL"
  | .bool b => if b then "true" else "false"
  | .int n => toString n.toInt
  | .float x => floatText x
  | .text s => s

/-- A text filled up with spaces to the given number of characters. -/
def fill (width : Nat) (s : String) : String := s ++ String.ofList (List.replicate (width - s.length) ' ')

/-- A filled text has at least the width of its column. -/
theorem fill_length (width : Nat) (s : String) : width ≤ (fill width s).length := by
  simp [fill]
  omega

/-- The width of the column of a name. -/
def columnWidth (rows : List Row) (name : String) : Nat :=
  rows.foldl (fun width row => max width (((row.get? name).map fun v => (cellText v).utf8ByteSize).getD 0))
    name.utf8ByteSize

/-- A rule under the heading of a column. -/
def ruleText (width : Nat) : String := String.ofList (List.replicate width '─')

/-- The lines of a table, without the count of its rows. -/
def tableLines (rows : List Row) : List String :=
  let names := (rows.head?.getD []).map Prod.fst
  let columns := names.map fun name => (name, columnWidth rows name)
  let heading := " │ ".intercalate (columns.map fun (name, width) => fill width name)
  let rule := "─┼─".intercalate (columns.map fun (_, width) => ruleText width)
  let body := rows.map fun row =>
    " │ ".intercalate (columns.map fun (name, width) => fill width (((row.get? name).map cellText).getD ""))
  heading :: rule :: body

/-- Rows as a table with the count of its rows. -/
def table (rows : List Row) : String :=
  "\n".intercalate (tableLines rows) ++ "\n\n" ++ toString rows.length ++ " row(s) returned\n"

end SqlDialect.Report
