import SqlDialect.Interval.Locate

/-!
# Converting interval expressions

`convert` replaces the interval expressions of a text by their embedded form, from left to right. The base of an
expression may reach back into what has been converted already; the search for the next keyword goes on behind the
form just written.
-/

namespace SqlDialect.Interval

/-- The text `done ++ rest` with the expressions converted whose first keyword stands in `rest`. -/
def convertFrom (done rest : Text) : Except StageError Text :=
  match _hk : findKeyword keyword done.getLast? rest with
  | none => .ok (done ++ rest)
  | some n =>
    match _h : locate (done ++ rest) (done.length + n) with
    | .error e => .error e
    | .ok e => convertFrom ((done ++ rest).take e.start ++ e.render) ((done ++ rest).drop e.stop)
termination_by rest.length
decreasing_by
  have h1 := locate_lt _h
  have h2 := findKeyword_add_le _hk
  have h3 : 0 < keyword.length := by decide +kernel
  simp only [List.length_drop, List.length_append]
  omega

/-- The text with every interval expression outside literals and comments in its embedded form. -/
def convert (text : Text) : Except StageError Text := convertFrom [] text

end SqlDialect.Interval
