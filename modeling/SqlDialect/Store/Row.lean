import SqlDialect.Value

/-!
# Result rows

A row of a result gives each column name a value. It is kept sorted by name, each name standing once; of two values
given to one name the later one stays.

* `get?_insert_self`: a name has the value given to it last.
-/

namespace SqlDialect

/-- The names of a row with their values, sorted by name. -/
abbrev Row := List (String × Value)

namespace Row

/-- The row with a value for a name. -/
def insert (name : String) (value : Value) : Row → Row
  | [] => [(name, value)]
  | (n, v) :: rest =>
    if name < n then (name, value) :: (n, v) :: rest
    else if name = n then (name, value) :: rest
    else (n, v) :: insert name value rest

/-- The value of a name. -/
def get? (name : String) : Row → Option Value
  | [] => none
  | (n, v) :: rest => if n = name then some v else get? name rest

/-- The row of names and their values, given from left to right. -/
def ofColumns (columns : List (String × Value)) : Row :=
  columns.foldl (fun row column => insert column.1 column.2 row) []

/-- A name has the value given to it last. -/
theorem get?_insert_self (name : String) (value : Value) (row : Row) :
    get? name (insert name value row) = some value := by
  fun_induction insert name value row with
  | case1 => simp [get?]
  | case2 => simp [get?]
  | case3 => simp [get?]
  | case4 n v rest _ hne ih => simp [get?, Ne.symm hne, ih]

end Row

end SqlDialect
