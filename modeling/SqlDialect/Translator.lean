import SqlDialect.Comment
import SqlDialect.FunctionName
import SqlDialect.Interval.Convert
import SqlDialect.Marker
import SqlDialect.Qualifier
import SqlDialect.TimeDifference
import SqlDialect.View.Header
import SqlDialect.View.Nesting

/-!
# From the networked to the embedded dialect

A `Translator` converts statements of the networked dialect into the embedded one, by text only: intervals, timestamp
differences, function names, parameter markers, schema qualifiers and line comments, in this order. Comments come
last since the stages before them may move a `#`. A view definition first loses its header options and redundant
parentheses.

* `translate_error`: a failure carries the statement as it was given.
-/

namespace SqlDialect

/-- The schema qualifier that is dropped where no other is set. -/
def defaultSchema : String := "hte_data"

/-- A statement that cannot be translated, with the refusal of the stage. -/
structure StatementError where
  query : Text
  cause : StageError
  deriving DecidableEq, Repr

/-- A translator that drops the qualifiers of one schema. -/
structure Translator where
  schema : Text := defaultSchema.toList
  deriving DecidableEq, Repr

namespace Translator

/-- The statement behind the stages that may refuse it. -/
def convertTimes (query : Text) : Except StageError Text :=
  match Interval.convert query with
  | .error e => .error e
  | .ok text => TimeDifference.convert text

/-- The statement behind the stages before the qualifiers are dropped. -/
def convertNames (text : Text) : Text := Marker.convert (FunctionName.convert text)

/-- The statement in the embedded dialect. -/
def run (tr : Translator) (query : Text) : Except StageError Text :=
  match convertTimes query with
  | .error e => .error e
  | .ok text => .ok (Comment.convert (Qualifier.strip tr.schema (convertNames text)).text)

/-- The statement in the embedded dialect. The first refusal ends the work. -/
def translate (tr : Translator) (query : Text) : Except StatementError Text :=
  (tr.run query).mapError (⟨query, ·⟩)

/-- A view definition with a plain header and without redundant parentheses. -/
def normalizeView (definition : Text) : Text := View.removeRedundantBrackets (View.normalizeHeader definition)

/-- The view definition in the embedded dialect. -/
def translateView (tr : Translator) (definition : Text) : Except StatementError Text :=
  (tr.run (normalizeView definition)).mapError (⟨definition, ·⟩)

/-- A failure carries the statement as it was given. -/
theorem translate_error {tr : Translator} {query : Text} {e : StatementError} (h : tr.translate query = .error e) :
    e.query = query ∧ tr.run query = .error e.cause := by
  unfold translate at h
  cases hr : tr.run query with
  | ok text => rw [hr] at h; cases h
  | error cause => rw [hr] at h; cases h; exact ⟨rfl, rfl⟩

end Translator

end SqlDialect
