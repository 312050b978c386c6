import SqlDialect.Command.Files
import SqlDialect.Store.Row

/-!
# The embedded database

The embedded database is kept by an engine that is known only by its answers: an `Engine` is any choice of its
operations, over any type of states. An `Embedded` database is a state of an engine behind a translator. Statements are
given to it in the networked dialect, and the engine sees the translated text alone.

* `Embedded.runText_state`: nothing is run of a statement that cannot be translated.
-/

namespace SqlDialect

/-- Why an engine breaks off a query that it has compiled, in words. -/
inductive QueryFault where
  /-- The values do not fit the markers. -/
  | values (reason : String)
  /-- There is no value for a column of a row. -/
  | row (reason : String)
  deriving DecidableEq, Repr

/-- The failure that a broken query is. -/
def QueryFault.failure : QueryFault → Failure
  | values reason => .unbound reason
  | row reason => .broken reason

/-- A database engine with states of type `σ`. What runs something also gives the state that it leaves, be it complete
or broken off. Refusals are given in words. -/
structure Engine (σ : Type) where
  /-- Opens the database with the given name: its state, and the files with its own. -/
  connect : FileTree → String → Except String (σ × FileTree)
  /-- Compiles a statement without running it. -/
  compile : σ → Text → Except String Unit
  /-- Runs the statements of a text. -/
  run : σ → Text → Except String Unit × σ
  /-- Runs a statement with values bound to its markers and counts the rows that it changes. -/
  change : σ → Text → List Value → Except String Nat × σ
  /-- Runs a compiled query with values bound to its markers. -/
  query : σ → Text → List Value → Except QueryFault (List Row) × σ

/-- An embedded database: its translator and the state of its engine. -/
structure Embedded (σ : Type) where
  translator : Translator
  state : σ

namespace Embedded

variable {σ α : Type} (engine : Engine σ) (db : Embedded σ)

/-! ## Translated texts -/

/-- What an operation on a translated text gives, and the database that it leaves. There is nothing to operate on if the
translation fails. -/
def operate (translated : Except StatementError Text) (operation : Text → Except Failure α × σ) :
    Except Failure α × Embedded σ :=
  match translated with
  | .error e => (.error (.untranslatable e), db)
  | .ok text =>
    let (answer, state) := operation text
    (answer, { db with state := state })

/-- The translated text, if the engine runs its statements. -/
def runText (translated : Except StatementError Text) : Except Failure Text × Embedded σ :=
  db.operate translated fun text =>
    let (answer, state) := engine.run db.state text
    ((answer.map fun _ => text).mapError (.refused · text), state)

/-- Nothing is run of a statement that cannot be translated. -/
theorem runText_state {translated : Except StatementError Text} {e : StatementError}
    (h : (db.runText engine translated).1 = .error (.untranslatable e)) : (db.runText engine translated).2 = db := by
  cases translated with
  | error _ => rfl
  | ok text =>
    -- what the engine refuses is translated
    simp only [runText, operate] at h
    cases hrun : (engine.run db.state text).1 with
    | ok _ =>
      rw [hrun] at h
      cases h
    | error reason =>
      rw [hrun] at h
      cases h

/-! ## Statements -/

/-- The translated statement, if the engine compiles it. Nothing is run. -/
def verify (sql : Text) : Except Failure Text :=
  match db.translator.translate sql with
  | .error e => .error (.untranslatable e)
  | .ok text => ((engine.compile db.state text).map fun _ => text).mapError (.refused · text)

/-- Runs a statement of a script. Markers have no values there. -/
def runScript (sql : Text) : Except Failure Text × Embedded σ := db.runText engine (db.translator.translate sql)

/-- Makes a view. -/
def createView (definition : Text) : Except Failure Text × Embedded σ :=
  db.runText engine (db.translator.translateView definition)

/-- Runs a statement with the given values bound to its markers: how many rows it changes. -/
def execute (sql : Text) (values : List Value) : Except Failure Nat × Embedded σ :=
  db.operate (db.translator.translate sql) fun text =>
    let (answer, state) := engine.change db.state text values
    (answer.mapError (.refused · text), state)

/-- The rows that a query answers with the given values bound to its markers. -/
def query (sql : Text) (values : List Value) : Except Failure (List Row) × Embedded σ :=
  db.operate (db.translator.translate sql) fun text =>
    match engine.compile db.state text with
    | .error reason => (.error (.refused reason text), db.state)
    | .ok _ =>
      let (answer, state) := engine.query db.state text values
      (answer.mapError QueryFault.failure, state)

/-- The first row that a query answers. -/
def queryOne (sql : Text) (values : List Value) : Except Failure Row × Embedded σ :=
  match db.query engine sql values with
  | (.ok (row :: _), db) => (.ok row, db)
  | (.ok [], db) => (.error .noRows, db)
  | (.error f, db) => (.error f, db)

end Embedded

end SqlDialect
