import SqlDialect.Piece

/-!
# Keywords

A keyword is met in any case of its ASCII letters. On a side where it ends in a word character it must not touch
another word character, so `if(` is found in `x,if(` and not in `iif(`.

* `findKeyword_startsKeyword`: the keyword stands where it is found.
-/

namespace SqlDialect

/-- Does the keyword `word` stand at the start of `text`, where `before` is the character in front? -/
def startsKeyword (word : Text) (before : Option Char) (text : Text) : Bool :=
  Text.starts word text &&
    !(word.head?.any isWord && before.any isWord) &&
    !(word.getLast?.any isWord && (text.drop word.length).head?.any isWord)

/-- How many characters stand before the first place outside literals and comments where `word` stands. -/
def findKeyword (word : Text) (before : Option Char) : Text → Option Nat
  | [] => none
  | c :: rest =>
    match regionTail? c rest with
    | some (_, n) => (findKeyword word (c :: rest.take n).getLast? (rest.drop n)).map (· + (n + 1))
    | none =>
      if startsKeyword word before (c :: rest) then some 0
      else (findKeyword word (some c) rest).map (· + 1)
termination_by text => text.length
decreasing_by all_goals simp only [List.length_drop, List.length_cons]; omega

/-- The first position from `start` on where `word` stands outside literals and comments. -/
def findKeywordFrom (text word : Text) (start : Nat) : Option Nat :=
  (findKeyword word (text.take start).getLast? (text.drop start)).map (start + ·)

theorem starts_length {word text : Text} (h : Text.starts word text = true) : word.length ≤ text.length := by
  induction word generalizing text with
  | nil => simp
  | cons w word ih =>
    cases text with
    | nil => simp [Text.starts] at h
    | cons c text =>
      simp only [Text.starts, Bool.and_eq_true] at h
      have := ih h.2
      simp only [List.length_cons]
      omega

/-- A text that starts with a keyword starts with its characters. -/
theorem starts_of_startsKeyword {word text : Text} {before : Option Char}
    (h : startsKeyword word before text = true) : Text.starts word text = true := by
  simp only [startsKeyword, Bool.and_eq_true] at h
  exact h.1.1

/-- The keyword stands where it is found. -/
theorem findKeyword_startsKeyword {word text : Text} {before : Option Char} {n : Nat}
    (h : findKeyword word before text = some n) :
    ∃ b, startsKeyword word b (text.drop n) = true ∧ n < text.length := by
  fun_induction findKeyword word before text generalizing n with
  | case1 => cases h
  | case2 before c rest k m hr ih =>
    obtain ⟨i, hi, rfl⟩ := Option.map_eq_some_iff.mp h
    obtain ⟨b, hb, hl⟩ := ih hi
    refine ⟨b, ?_, ?_⟩
    · rw [← Nat.add_assoc, List.drop_succ_cons, Nat.add_comm i m, ← List.drop_drop]; exact hb
    · simp only [List.length_drop] at hl; simp only [List.length_cons]; omega
  | case3 before c rest hr hs => cases h; exact ⟨before, by simpa using hs, by simp⟩
  | case4 before c rest hr hs ih =>
    obtain ⟨i, hi, rfl⟩ := Option.map_eq_some_iff.mp h
    obtain ⟨b, hb, hl⟩ := ih hi
    exact ⟨b, by simpa using hb, by simp only [List.length_cons]; omega⟩

/-- There is room for the keyword where it is found. -/
theorem findKeyword_add_le {word text : Text} {before : Option Char} {n : Nat}
    (h : findKeyword word before text = some n) : n + word.length ≤ text.length := by
  obtain ⟨b, hb, hl⟩ := findKeyword_startsKeyword h
  have := starts_length (starts_of_startsKeyword hb)
  simp only [List.length_drop] at this
  omega

end SqlDialect
