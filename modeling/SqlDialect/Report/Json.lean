import SqlDialect.Report.Table

/-!
# Results as JSON

Rows are written as an array of objects, one member on a line. In a string the quote, the backslash and the control
characters have escapes.
-/

namespace SqlDialect.Report

/-- A digit of a hexadecimal number. -/
def hexDigit (n : Nat) : Char := "0123456789abcdef".toList.getD n '0'

/-- The form of a character in a JSON string. -/
def jsonEscape (c : Char) : List Char :=
  if c = '"' then ['\\', '"']
  else if c = '\\' then ['\\', '\\']
  else if c = '\n' then ['\\', 'n']
  else if c = '\r' then ['\\', 'r']
  else if c = '\t' then ['\\', 't']
  else if c = '\x08' then ['\\', 'b']
  else if c = '\x0c' then ['\\', 'f']
  else if c.toNat < 0x20 then ['\\', 'u', '0', '0', hexDigit (c.toNat / 16), hexDigit (c.toNat % 16)]
  else [c]

/-- A JSON string. -/
def jsonString (s : String) : String := "\"" ++ String.ofList (s.toList.flatMap jsonEscape) ++ "\""

/-- A value in JSON. -/
def jsonValue : Value → String
  | .null => "null"
  | .text s => jsonString s
  | v => cellText v

/-- A row as a JSON object. -/
def jsonRow (row : Row) : String :=
  if row.isEmpty then "\x7b\x7d"
  else
    "\x7b\n" ++ ",\n".intercalate (row.map fun (name, v) => "    " ++ jsonString name ++ ": " ++ jsonValue v) ++
      "\n  \x7d"

/-- Rows as a JSON array. -/
def json (rows : List Row) : String :=
  if rows.isEmpty then "[]\n"
  else "[\n" ++ ",\n".intercalate (rows.map fun row => "  " ++ jsonRow row) ++ "\n]\n"

end SqlDialect.Report
