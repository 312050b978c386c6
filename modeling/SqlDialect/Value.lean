import SqlDialect.Decimal.Reading
import SqlDialect.Text.Utf8

/-!
# Values

A `Value` is bound to a parameter marker or shown as a result. `Value.ofArgument` reads one from an argument of the
command line. A `Cell` is what the embedded database stores: it knows no booleans and keeps bytes beside texts.

* `Cell.ofValue` stores a value, `Cell.shown` gives back what a result shows of a cell.
* `ofArgument_text`: an argument that is read as a text is that text.
-/

namespace SqlDialect

/-- A dynamic value. -/
inductive Value where
  | null
  | bool (b : Bool)
  | int (n : Int64)
  | float (x : Float)
  | text (s : String)

namespace Value

/-- The 64-bit integer that a text denotes, if it is in range. -/
def int? (text : Text) : Option Int64 :=
  (Decimal.integer? text).bind fun n =>
    if Int64.minValue.toInt ≤ n ∧ n ≤ Int64.maxValue.toInt then some (Int64.ofInt n) else none

/-- An argument is an integer if it can be read as one, then a decimal, then one of the words for truth values and
null, and else a text. -/
def ofArgument (argument : String) : Value :=
  match int? argument.toList with
  | some n => .int n
  | none =>
    match Decimal.float? argument.toList with
    | some x => .float x
    | none =>
      match argument with
      | "true" => .bool true
      | "false" => .bool false
      | "null" | "NULL" => .null
      | _ => .text argument

/-- An argument that is read as a text is that text. -/
theorem ofArgument_text {argument s : String} (h : ofArgument argument = .text s) : s = argument := by
  unfold ofArgument at h
  split at h
  · cases h
  · split at h
    · cases h
    · split at h <;> cases h
      rfl

/-- An optional value is null where it is missing. -/
def ofOption {α : Type} (f : α → Value) (x : Option α) : Value := (x.map f).getD .null

end Value

/-! ## Stored values -/

/-- A stored value. -/
inductive Cell where
  | null
  | int (n : Int64)
  | real (x : Float)
  | text (s : String)
  | blob (bytes : List UInt8)

namespace Cell

/-- The cell that a value is stored in. Truth values become integers, and what is not a number becomes null. -/
def ofValue : Value → Cell
  | .null => .null
  | .bool b => .int (if b then 1 else 0)
  | .int n => .int n
  | .float x => if x.isNaN then .null else .real x
  | .text s => .text s

/-- What a result shows of a cell: the infinities have no form there, and bytes are shown as a text. -/
def shown : Cell → Value
  | null => .null
  | int n => .int n
  | real x => if x.isFinite then .float x else .null
  | text s => .text s
  | blob bytes => .text (String.ofList (Utf8.decodeLossy bytes))

/-- The number that a cell counts as in a statistic. A text counts if it denotes a decimal, with or without spaces
around it. -/
def observation? : Cell → Option Float
  | int n => some n.toFloat
  | real x => some x
  | text s => Decimal.float? (Text.trim s.toList)
  | null | blob _ => none

end Cell

end SqlDialect
