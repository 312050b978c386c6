import SqlDialect.Text

/-!
# Parameter markers

The marker `%s` stands for a parameter in the networked dialect, `?` in the embedded one. The replacement is by plain
text: a marker inside a literal is replaced too.

* `count_convert`: the converted text has one `?` more for every marker.
-/

namespace SqlDialect.Marker

/-- The text with every `%s` written as `?`. -/
def convert : Text → Text
  | '%' :: 's' :: rest => '?' :: convert rest
  | c :: rest => c :: convert rest
  | [] => []

/-- The number of markers `%s` in a text. -/
def count : Text → Nat
  | '%' :: 's' :: rest => count rest + 1
  | _ :: rest => count rest
  | [] => 0

/-- The converted text has one `?` more for every marker. -/
theorem count_convert (text : Text) : (convert text).count '?' = text.count '?' + count text := by
  fun_induction convert text with
  | case1 rest ih => simp [count, ih]; omega
  | case2 c rest h ih =>
    rw [count]
    · simp only [List.count_cons, ih]; omega
    · exact h
  | case3 => rfl

end SqlDialect.Marker
