import SqlDialect.Interval.Term
import SqlDialect.Proofs.Bytes.Keyword

/-!
# Blanks and comments by byte offsets

What may stand between two tokens is passed over to the right (`skipBlanks`, `skipTrivia`) and to the left
(`skipBlanksLeft`). All of these stop at whole characters.

* `skipTrivia_eq`: blanks and comments are passed over as far as `triviaLength` says.
-/

namespace SqlDialect.Bytes

open Text

variable {text rest : Text} {c : Char} {i j : Nat}

/-! ## To the right -/

/-- The offset behind the blanks that start at an offset. -/
def skipBlanks (text : Text) (i : Nat) : Checked Nat :=
  if i < byteLength text then do
    let b ← byte? text i
    if isBlank b then skipBlanks text (i + 1) else return i
  else return i
termination_by byteLength text - i

theorem skipBlanks_of_byte {b : Char} (hb : byte? text i = some b) :
    skipBlanks text i = if isBlank b then skipBlanks text (i + 1) else some i := by
  rw [skipBlanks, if_pos (lt_of_byte? hb), hb]
  rfl

theorem skipBlanks_le (h : skipBlanks text i = some j) : i ≤ j := by
  fun_induction skipBlanks text i with
  | case1 i hlt ih =>
    obtain ⟨b, hb, h⟩ := Option.bind_eq_some_iff.mp h
    split at h
    · exact Nat.le_of_succ_le (ih h)
    · exact Nat.le_of_eq (Option.some.inj h)
  | case2 i hlt => exact Nat.le_of_eq (Option.some.inj h)

/-- The offset behind the blanks and comments that start at an offset. -/
def skipTrivia (text : Text) (i : Nat) : Checked Nat :=
  match _b : skipBlanks text i with
  | none => none
  | some stop =>
    match _c : skipComment text stop with
    | some (some next) => skipTrivia text next
    | some none => return stop
    | none => none
termination_by byteLength text - i
decreasing_by
  have := skipBlanks_le _b
  have := skipComment_lt _c
  omega

theorem skipTrivia_le (h : skipTrivia text i = some j) : i ≤ j := by
  fun_induction skipTrivia text i with
  | case1 | case4 => cases h
  | case2 i stop hb next hc ih =>
    have hstop := skipBlanks_le hb
    have hnext := skipComment_lt hc
    have := ih h
    omega
  | case3 i stop hb hc =>
    cases h
    exact skipBlanks_le hb

theorem skipTrivia_of_blanks (h : skipBlanks text i = some j) :
    skipTrivia text i = (do
      match ← skipComment text j with
      | some next => skipTrivia text next
      | none => return j) := by
  rw [skipTrivia, h]
  simp only
  rcases skipComment text j with _ | _ | next <;> rfl

theorem not_wide_of_isBlank {b : Char} (h : isBlank b = true) : ¬ Wide b := fun hw => by
  rw [isBlank_of_wide hw] at h
  cases h

theorem skipBlanks_end (h : text.drop i = []) : skipBlanks text (byteOffset text i) = some (byteOffset text i) := by
  rw [skipBlanks, if_neg (by rw [byteOffset_of_le (List.drop_eq_nil_iff.mp h)]; omega)]
  rfl

theorem skipBlanks_blank (h : text.drop i = c :: rest) (hc : isBlank c = true) :
    skipBlanks text (byteOffset text i) = skipBlanks text (byteOffset text (i + 1)) := by
  have hw := not_wide_of_isBlank hc
  rw [skipBlanks_of_byte (byte?_byteOffset h hw), if_pos hc, byteOffset_succ_of_not_wide h hw]

theorem skipBlanks_stop (h : text.drop i = c :: rest) (hc : isBlank c = false) :
    skipBlanks text (byteOffset text i) = some (byteOffset text i) := by
  obtain ⟨-, hb⟩ | ⟨-, b, hb, hw⟩ := byte?_cases h
  · rw [skipBlanks_of_byte hb, hc]
    rfl
  · rw [skipBlanks_of_byte hb, isBlank_of_wide hw]
    rfl

/-- Blanks are passed over. -/
theorem skipBlanks_eq (text : Text) (i : Nat) :
    skipBlanks text (byteOffset text i) = some (byteOffset text (i + ((text.drop i).takeWhile isBlank).length)) := by
  generalize h : text.drop i = rest
  induction rest generalizing i with
  | nil => exact skipBlanks_end h
  | cons c rest ih =>
    rw [List.takeWhile_cons]
    cases hc : isBlank c with
    | true =>
      rw [skipBlanks_blank h hc, ih (i + 1) (drop_succ h), if_pos rfl, List.length_cons, Nat.add_right_comm,
        Nat.add_assoc]
    | false => exact skipBlanks_stop h hc

/-- What stands behind blanks. -/
theorem drop_blanks (text : Text) (i : Nat) :
    text.drop (i + ((text.drop i).takeWhile isBlank).length) = (text.drop i).dropWhile isBlank := by
  rw [← List.drop_drop]
  generalize text.drop i = t
  induction t with
  | nil => rfl
  | cons c t ih => cases hc : isBlank c <;> simp [hc, ih]

/-- The byte behind blanks. -/
theorem byte?_behind_blanks (text : Text) (i : Nat) :
    (byte? text (byteOffset text (i + ((text.drop i).takeWhile isBlank).length)) = some '(') =
      (((text.drop i).dropWhile isBlank).head? = some '(') := by
  rw [byte?_eq_some_iff (by decide), drop_blanks]

/-- At the end of a text no comment starts. -/
theorem skipComment_end (h : text.drop i = []) : skipComment text (byteOffset text i) = some none := by
  rw [skipComment, byte?_end h]
  rfl

/-- Blanks and comments are passed over. -/
theorem skipTrivia_eq (text : Text) (i : Nat) :
    skipTrivia text (byteOffset text i) = some (byteOffset text (i + Interval.triviaLength (text.drop i))) := by
  generalize h : text.drop i = rest
  fun_induction Interval.triviaLength rest generalizing i with
  | case1 =>
    rw [skipTrivia_of_blanks (skipBlanks_end h)]
    simp only [Option.bind_eq_bind, Option.bind_some, skipComment_end h]
    rfl
  | case2 c rest hc ih =>
    have hstep : skipTrivia text (byteOffset text i) = skipTrivia text (byteOffset text (i + 1)) := by
      rw [skipTrivia, skipTrivia, skipBlanks_blank h hc]
    rw [hstep, ih (i + 1) (drop_succ h), Nat.add_assoc, Nat.add_comm 1]
  | case3 c rest hc n hn ih =>
    rw [skipTrivia_of_blanks (skipBlanks_stop h (by simpa using hc))]
    simp only [Option.bind_eq_bind, Option.bind_some, skipComment_eq h, hn, Option.map_some, ih _ (drop_add_succ h n)]
    congr 2
    omega
  | case4 c rest hc hn =>
    rw [skipTrivia_of_blanks (skipBlanks_stop h (by simpa using hc))]
    simp only [Option.bind_eq_bind, Option.bind_some, skipComment_eq h, hn, Option.map_none]
    rfl

/-! ## To the left -/

/-- The offset in front of the blanks that end at an offset. -/
def skipBlanksLeft (text : Text) (i : Nat) : Checked Nat := do
  let before ← byteBefore text i
  if before.any isBlank then
    match _h : minus i 1 with
    | some i => skipBlanksLeft text i
    | none => none
  else return i
termination_by i
decreasing_by exact lt_of_minus _h

/-- Blanks to the left are passed over. -/
theorem skipBlanksLeft_eq (hi : i ≤ text.length) :
    skipBlanksLeft text (byteOffset text i) =
      some (byteOffset text ((text.take i).reverse.dropWhile isBlank).length) := by
  induction i with
  | zero =>
    rw [skipBlanksLeft, byteOffset_zero]
    rfl
  | succ i ih =>
    obtain ⟨b, hb, hany⟩ := byteBefore_any (fun c hc => isBlank_of_wide hc) hi
    have hdrop := List.drop_eq_getElem_cons hi
    rw [skipBlanksLeft, hb]
    simp only [Option.bind_eq_bind, Option.bind_some, hany]
    rw [List.take_succ_eq_append_getElem hi, List.reverse_append, List.reverse_singleton, List.singleton_append,
      List.getLast?_concat, Option.any_some, List.dropWhile_cons]
    cases hc : isBlank text[i] with
    | true =>
      rw [if_pos rfl, if_pos rfl, byteOffset_succ_of_not_wide hdrop (not_wide_of_isBlank hc),
        minus_of_le (Nat.le_add_left ..), Nat.add_sub_cancel]
      exact ih (Nat.le_of_lt hi)
    | false =>
      rw [if_neg (by simp), if_neg (by simp), List.length_cons, List.length_reverse,
        List.length_take_of_le (Nat.le_of_lt hi)]
      rfl

end SqlDialect.Bytes
