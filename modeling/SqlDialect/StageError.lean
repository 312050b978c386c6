import SqlDialect.Text

/-!
# Errors of the conversion stages

A stage refuses a statement for a `Cause`, pointing at the fragment of the statement that it could not handle. A
construct is *unsupported* if it is understood and has no counterpart in the embedded dialect, and *malformed* if its
text does not have the expected shape. `StageError.message` is the one place with the wording.
-/

namespace SqlDialect

/-- The two kinds of failure. -/
inductive ErrorKind where
  | unsupported
  | malformed
  deriving DecidableEq, Repr

/-- The name of a kind of failure. -/
def ErrorKind.name : ErrorKind → String
  | unsupported => "unsupported construct"
  | malformed => "malformed input"

/-- Why a stage refuses a statement. -/
inductive Cause where
  /-- No `+` or `-` stands before the keyword INTERVAL. -/
  | signMissing
  /-- Nothing stands before the sign of an interval. -/
  | baseMissing
  /-- A closing delimiter before the sign has no partner. -/
  | baseUnbalanced
  /-- An opening delimiter in an amount has no partner. -/
  | amountUnbalanced
  /-- No amount stands before the unit. -/
  | amountMissing
  /-- The amount is followed by no unit. -/
  | unitMissing
  /-- The unit has no single date modifier. -/
  | unitWithoutModifier (unit : Text)
  /-- A subtraction stands in nested parentheses of an amount. -/
  | nestedSubtraction
  /-- The parenthesis of a TIMESTAMPDIFF call is not closed. -/
  | callUnterminated
  /-- A TIMESTAMPDIFF call has not three arguments. -/
  | argumentCount (count : Nat)
  /-- The second or third argument of a TIMESTAMPDIFF call is blank. -/
  | argumentEmpty
  /-- The unit of a TIMESTAMPDIFF call is not SECOND. -/
  | differenceUnit (unit : Text)
  deriving DecidableEq, Repr

namespace Cause

/-- The kind of failure that a cause is. Too few arguments are malformed, too many are unsupported. -/
def kind : Cause → ErrorKind
  | unitWithoutModifier _ | nestedSubtraction | differenceUnit _ => .unsupported
  | argumentCount n => if 3 < n then .unsupported else .malformed
  | _ => .malformed

/-- The reason in words. -/
def reason : Cause → String
  | signMissing => "expected `+` or `-` before INTERVAL"
  | baseMissing => "missing timestamp expression before interval"
  | baseUnbalanced => "unbalanced timestamp expression before interval"
  | amountUnbalanced => "unbalanced interval amount"
  | amountMissing => "missing interval amount"
  | unitMissing => "missing interval unit"
  | unitWithoutModifier unit =>
    "interval unit " ++ String.ofList (Text.upper unit) ++ " has no SQLite date modifier"
  | nestedSubtraction => "nested parenthesized subtraction in an interval amount"
  | callUnterminated => "unterminated TIMESTAMPDIFF call"
  | argumentCount n => "TIMESTAMPDIFF takes 3 arguments, got " ++ toString n
  | argumentEmpty => "empty TIMESTAMPDIFF argument"
  | differenceUnit unit =>
    "TIMESTAMPDIFF unit " ++ String.ofList (Text.upper unit) ++
      " is not supported; only SECOND maps onto julianday arithmetic"

end Cause

/-- A refusal by a stage: the cause and the offending part of the statement. -/
structure StageError where
  cause : Cause
  fragment : Text
  deriving DecidableEq, Repr

namespace StageError

/-- The kind of failure. -/
def kind (e : StageError) : ErrorKind := e.cause.kind

/-- The failure in words. -/
def message (e : StageError) : String :=
  (match e.kind with
    | .unsupported => "Unsupported construct `"
    | .malformed => "Malformed input `") ++
  String.ofList e.fragment ++ "`: " ++ e.cause.reason

end StageError

theorem eq_ok_of_toOption {α : Type} {x : Except StageError α} {out : α} (h : x.toOption = some out) : x = .ok out := by
  cases x with
  | error e => cases h
  | ok t => rw [Option.some.inj h]

end SqlDialect
