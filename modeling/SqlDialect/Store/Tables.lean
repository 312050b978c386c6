import SqlDialect.Statistics
import SqlDialect.Store.Engine
import SqlDialect.Store.Location
import SqlDialect.Store.Statement

/-!
# A small engine

`Tables.engine` is the engine of the command line: it has one table with a single column, whose rows every view shows,
and takes a text for one of the forms of `Statement`. Whatever holds of a database holds for any engine, so nothing rests
on what this one answers. A `Database` is an embedded database of it.

The names of the path of a database are put together before they are followed, so that a name and the `..` behind it
cancel out whatever stands there.
-/

namespace SqlDialect

/-! ## Opening -/

namespace FileTree

/-- The place that the names lead to from a place, where `..` takes back the name before it, also one that nothing
stands at. Nothing can be named below a file, and no name can be too long. -/
def resolve? (tree : FileTree) (place : Place) : List String → Option Place
  | [] => some place
  | name :: names =>
    if Place.isTooLong name then none
    else
      match tree.node? place with
      | some (.file _) => if name = "" ∨ name = "." ∨ name = ".." then tree.resolve? (place.next name) names else none
      | _ => tree.resolve? (place.next name) names

/-- The tree with the file of a database and what the file holds. A file that does not exist is made in a directory that
exists, if the access allows that. -/
def openDatabase (tree : FileTree) : Location → Except Location.Fault (FileTree × ByteArray)
  | .transient => .ok (tree, .empty)
  | .file path access =>
    match tree.resolve? (Place.ofPath path).1 (Place.ofPath path).2 with
    | none => .error .unopened
    | some place =>
      match tree.node? place with
      | some .directory => .error .unopened
      | some (.file content) => .ok (tree, content)
      | none =>
        if access = .make ∧ tree.hasDirectory place.up then .ok (tree.add place (some (.file .empty)), .empty)
        else .error .unopened

end FileTree

/-- What can be done with a database. -/
inductive Permission where
  | change
  | look
  /-- Nothing: its file holds something else. -/
  | nothing
  deriving DecidableEq, Repr

/-- The bytes that the file of a database starts with. -/
def signature : List UInt8 := "SQLite format 3\x00".toUTF8.toList

/-- What can be done with the database at a location whose file holds the given bytes. A file of at most one byte is an
empty database. -/
def Location.permission (location : Location) (content : ByteArray) : Permission :=
  if 1 < content.size ∧ content.toList.take 16 ≠ signature then .nothing
  else
    match location with
    | .file _ .readOnly => .look
    | _ => .change

/-- The states of the engine: what can be done with the database, the tables and views that exist, and the rows of its
table. -/
structure Tables where
  permission : Permission := .change
  tables : List String := []
  cells : List Cell := []

namespace Tables

/-- The database with the given name, which has no tables yet, and the files with its own. -/
def connect (files : FileTree) (name : String) : Except String (Tables × FileTree) :=
  let opened : Except Location.Fault (Tables × FileTree) := do
    let location ← Location.read name
    let (files, content) ← files.openDatabase location
    return ({ permission := location.permission content }, files)
  opened.mapError (Location.Fault.message name)

/-! ## Statements -/

/-- The form of a text, if the table that it needs exists. -/
def prepare (db : Tables) (text : Text) : Except String Statement :=
  let statement := Statement.read text
  if db.permission = .nothing ∧ statement.usesTables then .error "file is not a database"
  else
    match statement.table? with
    | some table => if db.tables.contains table then .ok statement else .error ("no such table: " ++ table)
    | none => .ok statement

/-- May the statement be run? -/
def permit (db : Tables) (statement : Statement) : Except String Unit :=
  if db.permission = .look ∧ statement.changes then .error "attempt to write a readonly database" else .ok ()

/-- Do the values fit the markers of a text? Values beyond the first surplus one are not counted. -/
def checkCount (text : Text) (values : List Value) : Except String Unit :=
  let needed := markerCount text
  if values.length = needed then .ok ()
  else
    .error ("Wrong number of parameters passed to query. Got " ++ toString (min values.length (needed + 1)) ++
      ", needed " ++ toString needed)

/-! ## Queries -/

/-- The standard deviation over cells, shown as a result. -/
def deviationOf (cells : List Cell) : Value :=
  match (Deviation.ofList (cells.map Cell.observation?)).root? with
  | some x => (Cell.ofValue (.float x)).shown
  | none => .null

/-- The number that an argument of a function is, or nothing for null. Texts and bytes are refused with the place of
the argument. -/
def argument? (index : Nat) : Cell → Except QueryFault (Option Float)
  | .null => .ok none
  | .int n => .ok (some n.toFloat)
  | .real x => .ok (some x)
  | .text _ => refuse "Text"
  | .blob _ => refuse "Blob"
where
  refuse (type : String) : Except QueryFault (Option Float) :=
    .error (.row ("Invalid function parameter type " ++ type ++ " at index " ++ toString index))

/-- The power of two cells, shown as a result. -/
def powerOf (base exponent : Cell) : Except QueryFault Value := do
  let b ← argument? 0 base
  let e ← argument? 1 exponent
  match b, e with
  | some b, some e => return (Cell.ofValue (.float (b.pow e))).shown
  | _, _ => return .null

/-- The rows of bound values under the given names. -/
def boundRows (names : List String) (values : List Value) : List Row :=
  if _h : names.length ≤ values.length ∧ 0 < names.length then
    Row.ofColumns (names.zip ((values.take names.length).map fun v => (Cell.ofValue v).shown)) ::
      boundRows names (values.drop names.length)
  else []
termination_by values.length
decreasing_by simp only [List.length_drop]; omega

/-- The rows that a statement answers. -/
def answer (db : Tables) (statement : Statement) (values : List Value) : Except QueryFault (List Row) :=
  match statement with
  | .column _ => .ok (db.cells.map fun cell => [("x", cell.shown)])
  | .deviation _ => .ok [[("sd", deviationOf db.cells)]]
  | .powers _ =>
    let exponent := (values.head?.map Cell.ofValue).getD .null
    db.cells.mapM fun cell => do return [("p", ← powerOf cell exponent)]
  | .bound names => .ok (boundRows names values)
  | _ => .ok []

/-! ## Changes -/

/-- The bytes that hexadecimal digits denote. -/
def hexBytes : Text → List UInt8
  | a :: b :: rest =>
    let digit (c : Char) : Nat := if c.isDigit then c.toNat - 48 else c.toLower.toNat - 87
    UInt8.ofNat (16 * digit a + digit b) :: hexBytes rest
  | _ => []

/-- The state after a statement, and how many rows the statement changed. -/
def apply (db : Tables) (statement : Statement) (values : List Value) : Tables × Nat :=
  match statement with
  | .insert _ => ({ db with cells := db.cells ++ [(values.head?.map Cell.ofValue).getD .null] }, 1)
  | .insertBytes _ digits => ({ db with cells := db.cells ++ [.blob (hexBytes digits)] }, 1)
  | .delete _ => ({ db with cells := [] }, db.cells.length)
  | .create table => ({ db with tables := db.tables ++ [table] }, 0)
  | _ => (db, 0)

/-! ## The engine -/

/-- What an operation gives and the state that it leaves, which is the one before it if it is refused. -/
def leave {α : Type} (db : Tables) : Except String (Tables × α) → Except String α × Tables
  | .ok (db, answer) => (.ok answer, db)
  | .error reason => (.error reason, db)

/-- The engine. -/
def engine : Engine Tables where
  connect := connect
  compile db text := (db.prepare text).map fun _ => ()
  run db text := db.leave do
    let statement ← db.prepare text
    db.permit statement
    return ((db.apply statement []).1, ())
  change db text values := db.leave do
    let statement ← db.prepare text
    checkCount text values
    db.permit statement
    return db.apply statement values
  query db text values :=
    (match checkCount text values with
      | .ok _ => db.answer (Statement.read text) values
      | .error reason => .error (.values reason), db)

end Tables

/-! ## Databases in memory -/

/-- An embedded database of the small engine. -/
structure Database extends Tables where
  translator : Translator

namespace Database

/-- The database as one of its engine. -/
def embedded (db : Database) : Embedded Tables := ⟨db.translator, db.toTables⟩

/-- A database of the engine, with what an operation on it has given. -/
def ofAnswer {α : Type} : Except Failure α × Embedded Tables → Except Failure (Database × α)
  | (answer, db) => answer.map fun x => (⟨db.state, db.translator⟩, x)

/-- The translated statement, if the database takes it. Nothing is run. -/
def verify (db : Database) (sql : Text) : Except Failure Text := db.embedded.verify Tables.engine sql

/-- The rows that a query answers with the given values bound to its markers. -/
def query (db : Database) (sql : Text) (values : List Value) : Except Failure (List Row) :=
  (db.embedded.query Tables.engine sql values).1

/-- The first row that a query answers. -/
def queryOne (db : Database) (sql : Text) (values : List Value) : Except Failure Row :=
  (db.embedded.queryOne Tables.engine sql values).1

/-- The database after a change with the given values bound to its markers, and how many rows it changed. -/
def execute (db : Database) (sql : Text) (values : List Value) : Except Failure (Database × Nat) :=
  ofAnswer (db.embedded.execute Tables.engine sql values)

/-- The database after a view is made, and the translated definition. -/
def createView (db : Database) (definition : Text) : Except Failure (Database × Text) :=
  ofAnswer (db.embedded.createView Tables.engine definition)

end Database

end SqlDialect
