import SqlDialect.Split
import SqlDialect.Store.Engine

/-!
# Verification of scripts

A script is cut into statements at its semicolons, and each statement is checked for itself by an engine: compiled, or
run on the database that those before it leave. The findings are written to a report.

* `findings_compiled`: what is only compiled is checked on the same database.
-/

namespace SqlDialect.Report

/-- The statements of a script, without spaces around them and without blank ones. -/
def statements (script : Text) : List Text :=
  ((splitTopLevel script ';').map Text.trim).filter fun s => !s.isEmpty

/-- A checked statement of a script: its embedded form or why there is none. -/
structure Finding where
  statement : Text
  result : Except Failure Text

/-- Did the statement fail? -/
def Finding.failed (f : Finding) : Bool :=
  match f.result with
  | .ok _ => false
  | .error _ => true

/-! ## Checking -/

section Check

variable {σ : Type} (engine : Engine σ) (execute : Bool)

/-- What the check of a statement gives, and the database that it leaves. The statement is run with `execute`, else only
compiled. -/
def check (db : Embedded σ) (statement : Text) : Except Failure Text × Embedded σ :=
  if execute then db.runScript engine statement else (db.verify engine statement, db)

/-- The findings for statements, each checked on the database that those before it leave. -/
def findings (db : Embedded σ) : List Text → List Finding
  | [] => []
  | statement :: rest =>
    let (result, db) := check engine execute db statement
    ⟨statement, result⟩ :: findings db rest

/-- Compiling changes nothing, so every statement is checked on the same database. -/
theorem findings_compiled (db : Embedded σ) (l : List Text) :
    findings engine false db l = l.map fun statement => ⟨statement, db.verify engine statement⟩ := by
  induction l with
  | nil => rfl
  | cons statement l ih => exact congrArg _ ih

end Check

/-! ## Reports -/

/-- The findings for the statements of a script. -/
structure Verification where
  source : String
  schema : String
  findings : List Finding

namespace Verification

/-- How many statements failed. -/
def failures (v : Verification) : Nat := v.findings.countP Finding.failed

/-- The lines of a report for the statement with the given number. -/
def findingLines (number : Nat) (f : Finding) : List String :=
  match f.result with
  | .ok text => ["[ok] statement " ++ toString number, String.ofList text, ""]
  | .error e => ["[failed] statement " ++ toString number ++ ": " ++ e.message, String.ofList f.statement, ""]

/-- The line on the terminal for the statement with the given number. -/
def outcomeLine (number : Nat) (f : Finding) : String :=
  match f.result with
  | .ok _ => "  ✓ Statement " ++ toString number
  | .error e => "  ✗ Statement " ++ toString number ++ ": " ++ e.message

/-- The report, with the time of the verification if it is given. -/
def report (v : Verification) (time : Option String) : String :=
  let heading := ["labsql verification of " ++ v.source] ++ (time.map ("run at " ++ ·)).toList ++
    ["schema qualifier: " ++ v.schema, ""]
  let body := v.findings.zipIdx.flatMap fun (f, i) => findingLines (i + 1) f
  String.join ((heading ++ body).map (· ++ "\n"))

end Verification

end SqlDialect.Report
