import SqlDialect.Keyword
import SqlDialect.Split
import SqlDialect.StageError

/-!
# Timestamp differences

`timestampdiff(SECOND, a, b)` becomes `((julianday(b) - julianday(a)) * 86400)`. Calls are converted from the outside
in: after each one the search goes on at the start of the new text, which holds the arguments with their own calls.

* `render_countP_le`: what is written holds at most the letters `m` of the arguments. A call has two more, in its
  name, so the conversion ends.
-/

namespace SqlDialect

/-- The three arguments of a TIMESTAMPDIFF call, without the spaces around them. -/
structure TimeDifference where
  unit : Text
  first : Text
  last : Text
  deriving DecidableEq, Repr

namespace TimeDifference

/-- The name of the function. -/
@[irreducible] def functionName : Text := "timestampdiff".toList

theorem functionName_ne_nil : functionName ≠ [] := by decide +kernel

/-- The one unit that the embedded form can express. -/
@[irreducible] def unitName : Text := "second".toList

/-- The call `call` read from the text between its parentheses. -/
def read (call arguments : Text) : Except StageError TimeDifference :=
  match splitTopLevel arguments ',' with
  | [unit, first, last] =>
    let d : TimeDifference := ⟨Text.trim unit, Text.trim first, Text.trim last⟩
    if d.first.isEmpty || d.last.isEmpty then .error ⟨.argumentEmpty, call⟩
    else if Text.same d.unit unitName then .ok d
    else .error ⟨.differenceUnit d.unit, call⟩
  | parts => .error ⟨.argumentCount parts.length, call⟩

/-- What is written before the last timestamp. -/
@[irreducible] def opening : Text := "((julianday(".toList

/-- What is written between the timestamps. -/
@[irreducible] def middle : Text := ") - julianday(".toList

/-- What is written behind the first timestamp; a day has 86400 seconds. -/
@[irreducible] def closing : Text := ")) * 86400)".toList

/-- The difference in seconds, written with the day numbers of the two timestamps. -/
def render (d : TimeDifference) : Text := opening ++ d.last ++ middle ++ d.first ++ closing

/-! ## Termination -/

/-- The letter by which the conversion is measured. -/
def isMeasured (c : Char) : Bool := c = 'm' || c = 'M'

/-- The parts of a text hold its measured letters between them. -/
theorem countP_joinParts {sep : Char} (h : isMeasured sep = false) (part : Text) (parts : List Text) :
    (joinParts sep part parts).countP isMeasured =
      part.countP isMeasured + parts.flatten.countP isMeasured := by
  induction parts with
  | nil => simp [joinParts]
  | cons t parts ih =>
    simp only [joinParts, List.flatMap_cons, List.countP_append, List.countP_cons, h, List.flatten_cons] at ih ⊢
    simp only [Bool.false_eq_true, if_false]
    omega

/-- The written form holds the measured letters of its two timestamps and no more. -/
theorem countP_render (d : TimeDifference) :
    d.render.countP isMeasured = d.last.countP isMeasured + d.first.countP isMeasured := by
  have h1 : opening.countP isMeasured = 0 := by decide +kernel
  have h2 : middle.countP isMeasured = 0 := by decide +kernel
  have h3 : closing.countP isMeasured = 0 := by decide +kernel
  simp [render, h1, h2, h3]

/-- What is written holds at most the measured letters of the arguments. -/
theorem render_countP_le {call arguments : Text} {d : TimeDifference} (h : read call arguments = .ok d) :
    d.render.countP isMeasured ≤ arguments.countP isMeasured := by
  unfold read at h
  split at h
  · next unit first last hp =>
    have hj := joinParts_splitPieces ',' 0 (pieces arguments)
    rw [textOf_pieces] at hj
    simp only [splitTopLevel, List.cons.injEq] at hp
    rw [hp.1, hp.2] at hj
    have h1 := (Text.trim_sublist first).countP_le (p := isMeasured)
    have h2 := (Text.trim_sublist last).countP_le (p := isMeasured)
    have h3 := countP_joinParts (by decide : isMeasured ',' = false) unit [first, last]
    rw [hj] at h3
    simp only [List.flatten_cons, List.flatten_nil, List.append_nil, List.countP_append] at h3
    simp only at h
    split at h
    · cases h
    · split at h
      · rw [← Except.ok.inj h, countP_render]
        simp only
        omega
      · cases h
  · cases h

theorem countP_drop_lt {before : Option Char} {text : Text} {n : Nat}
    (h : startsKeyword functionName before (text.drop n) = true) :
    (text.drop (n + functionName.length)).countP isMeasured < (text.drop n).countP isMeasured := by
  have hs : ∀ {w t : Text}, Text.starts w t = true →
      (t.drop w.length).countP isMeasured + w.countP isMeasured = t.countP isMeasured := by
    intro w
    induction w with
    | nil => simp
    | cons c w ih =>
      intro t ht
      cases t with
      | nil => simp [Text.starts] at ht
      | cons d t =>
        simp only [Text.starts, Bool.and_eq_true, beq_iff_eq] at ht
        have hcd : isMeasured c = isMeasured d := by
          have key : ∀ x : Char, isMeasured x = decide (x.toLower = 'm') := by
            intro x
            by_cases hx : x = 'm'
            · subst hx; decide
            · by_cases hX : x = 'M'
              · subst hX; decide
              · have : x.toLower ≠ 'm' := by
                  intro hl
                  unfold Char.toLower at hl
                  split at hl
                  · next hr =>
                    apply hX
                    have : x.val + 32 = 109 := by
                      have := congrArg Char.val hl
                      simpa using this
                    apply Char.ext
                    have h2 : x.val = 77 := by
                      have h3 : x.val + 32 - 32 = 109 - 32 := by rw [this]
                      simpa using h3
                    simpa using h2
                  · exact hx hl
                simp [isMeasured, hx, hX, this]
          rw [key, key, ht.1]
        have := ih ht.2
        simp only [List.length_cons, List.drop_succ_cons, List.countP_cons, hcd]
        omega
  simp only [startsKeyword, Bool.and_eq_true] at h
  have h1 := hs h.1.1
  have h2 : functionName.countP isMeasured = 2 := by decide +kernel
  rw [List.drop_drop] at h1
  omega

/-! ## Converting -/

/-- The text `done ++ rest` with the calls in `rest` converted. A name without a parenthesis behind it is no call. -/
def convertFrom (done rest : Text) : Except StageError Text :=
  match _hk : findKeyword functionName done.getLast? rest with
  | none => .ok (done ++ rest)
  | some n =>
    let after := rest.drop (n + functionName.length)
    let blanks := after.takeWhile isBlank
    match _ha : after.dropWhile isBlank with
    | '(' :: inner =>
      match _hc : closingOffset? ('(' :: inner) with
      | none => .error ⟨.callUnterminated, rest.drop n⟩
      | some close =>
        let call := (rest.drop n).take (functionName.length + blanks.length + close + 1)
        let arguments := inner.take (close - 1)
        match _hd : read call arguments with
        | .error e => .error e
        | .ok d => convertFrom (done ++ rest.take n) (d.render ++ inner.drop close)
    | _ => convertFrom (done ++ rest.take (n + functionName.length)) after
termination_by rest.countP isMeasured
decreasing_by
  all_goals
    obtain ⟨b, hb, _⟩ := findKeyword_startsKeyword _hk
    have h1 := countP_drop_lt hb
    have h2 := (List.drop_sublist n rest).countP_le (p := isMeasured)
  · have h3 : d.render.countP isMeasured ≤ (inner.take (close - 1)).countP isMeasured := render_countP_le _hd
    have h4 : (inner.take (close - 1)).countP isMeasured + (inner.drop close).countP isMeasured ≤
        inner.countP isMeasured := by
      have h5 : inner.countP isMeasured =
          (inner.take (close - 1)).countP isMeasured + (inner.drop (close - 1)).countP isMeasured := by
        rw [← List.countP_append, List.take_append_drop]
      have h6 : inner.drop close = (inner.drop (close - 1)).drop (close - (close - 1)) := by
        rw [List.drop_drop]; congr 1; omega
      have h7 := (List.drop_sublist (close - (close - 1)) (inner.drop (close - 1))).countP_le (p := isMeasured)
      rw [← h6] at h7
      omega
    have h5 : inner.countP isMeasured ≤ (rest.drop (n + functionName.length)).countP isMeasured := by
      have h6 : ('(' :: inner).Sublist (rest.drop (n + functionName.length)) := by
        rw [← _ha]; exact List.dropWhile_sublist _
      exact ((List.sublist_cons_self _ _).trans h6).countP_le (p := isMeasured)
    simp only [List.countP_append]
    omega
  · omega

/-- The text with every TIMESTAMPDIFF call outside literals and comments converted. -/
def convert (text : Text) : Except StageError Text := convertFrom [] text

end TimeDifference

end SqlDialect
