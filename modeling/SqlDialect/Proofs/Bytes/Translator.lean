import SqlDialect.Translator
import SqlDialect.Proofs.Bytes.Interval
import SqlDialect.Proofs.Bytes.Header
import SqlDialect.Proofs.Bytes.View

/-!
# The translation by byte offsets

The stages follow each other as in the conversion by positions. None of them stops at an offset, whatever the text is.

* `translation_by_offsets`: statements and view definitions are always answered, and with the same answers.
-/

namespace SqlDialect.Bytes

open Text

/-- The statement behind the stages that may refuse it. -/
def convertTimes (query : Text) : Checked (Except StageError Text) := do
  match ← intervalLoop query 0 with
  | .error e => return .error e
  | .ok text => differenceLoop text 0

/-- The statement in the embedded dialect. -/
def run (tr : Translator) (query : Text) : Checked (Except StageError Text) := do
  match ← convertTimes query with
  | .error e => return .error e
  | .ok text =>
    let renamed ← renameAll FunctionName.renames text
    let stripped ← stripQualifiers tr.schema (Marker.convert renamed)
    return .ok (← commentLoop stripped.text 0 0)

/-- The statement in the embedded dialect. The first refusal ends the work. -/
def translate (tr : Translator) (query : Text) : Checked (Except StatementError Text) := do
  return (← run tr query).mapError (⟨query, ·⟩)

/-- The view definition in the embedded dialect. -/
def translateView (tr : Translator) (definition : Text) : Checked (Except StatementError Text) := do
  let normalized ← bracketsLoop (← normalizeHeader definition) 0
  return (← run tr normalized).mapError (⟨definition, ·⟩)

variable (tr : Translator) (query : Text)

theorem convertTimes_eq : convertTimes query = some (Translator.convertTimes query) := by
  rw [convertTimes, Translator.convertTimes, intervalLoop_zero]
  simp only [Option.bind_eq_bind, Option.bind_some, differenceLoop_zero]
  cases Interval.convert query <;> rfl

/-- The stages one after the other. -/
theorem run_eq : run tr query = some (tr.run query) := by
  rw [run, Translator.run, convertTimes_eq]
  simp only [Option.bind_eq_bind, Option.bind_some, renameAll_eq, stripQualifiers_eq, commentLoop_zero,
    Translator.convertNames]
  cases Translator.convertTimes query <;> rfl

/-- **The translation never stops at an offset.** Every access in the translation of a statement or of a view
definition is within its text and between characters, and no difference is below zero. -/
theorem translation_by_offsets :
    translate tr query = some (tr.translate query) ∧ translateView tr query = some (tr.translateView query) := by
  constructor
  · rw [translate, run_eq]
    rfl
  · rw [translateView, normalizeHeader_eq]
    simp only [Option.bind_eq_bind, Option.bind_some, bracketsLoop_zero, run_eq]
    rfl

end SqlDialect.Bytes
