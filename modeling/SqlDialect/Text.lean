/-!
# Texts and their characters

A statement is a `Text`, a list of characters, and a position in it counts characters. Two notions of blank are kept
apart: `isBlank` is the white space that separates tokens of a statement, `isSpace` is every character of Unicode's
`White_Space` property, which `Text.trim` removes from the ends of a slice.

* `isSpace_of_isBlank`: every blank is a space.
* `Text.slice_append`: neighbouring slices make up the slice over both.
* `Text.trim_sublist`: trimming only takes characters away.
-/

namespace SqlDialect

/-- A statement, or a part of one. -/
abbrev Text := List Char

/-- What holds of every character of a text is decided by going through the text, not through all characters there
are. -/
instance Text.decidableAll (p : Char → Prop) [DecidablePred p] (text : Text) : Decidable (∀ c ∈ text, p c) :=
  List.decidableBAll p text

/-! ## Classes of characters -/

/-- Blanks separate tokens: space, tab, line feed, form feed and carriage return. -/
def isBlank (c : Char) : Bool :=
  c = ' ' || c = '\t' || c = '\n' || c = '\x0c' || c = '\r'

/-- The characters of Unicode's `White_Space` property. -/
def isSpace (c : Char) : Bool :=
  let n := c.toNat
  (9 ≤ n && n ≤ 13) || n = 0x20 || n = 0x85 || n = 0xA0 || n = 0x1680 || (0x2000 ≤ n && n ≤ 0x200A) ||
    n = 0x2028 || n = 0x2029 || n = 0x202F || n = 0x205F || n = 0x3000

/-- Every blank is a space. -/
theorem isSpace_of_isBlank {c : Char} (h : isBlank c = true) : isSpace c = true := by
  simp only [isBlank, Bool.or_eq_true, decide_eq_true_eq] at h
  rcases h with (((h | h) | h) | h) | h <;> subst h <;> decide

/-- Word characters make up names, keywords and numbers. Characters beyond ASCII count, so no name of another script
is split. -/
def isWord (c : Char) : Bool :=
  c.isAlphanum || c = '_' || c = '$' || 0x80 ≤ c.toNat

/-- Quotes delimit string literals and quoted names. -/
def isQuote (c : Char) : Bool :=
  c = '\'' || c = '"' || c = '\x60'

/-- The value of a hexadecimal digit. -/
def hexDigit? (c : Char) : Option Nat :=
  if c.isDigit then some (c.toNat - '0'.toNat)
  else if 'a' ≤ c ∧ c ≤ 'f' then some (c.toNat - 'a'.toNat + 10)
  else if 'A' ≤ c ∧ c ≤ 'F' then some (c.toNat - 'A'.toNat + 10)
  else none

/-! ## Slices, trimming and letter case -/

namespace Text

/-- The characters from position `start` up to, not including, position `stop`. -/
def slice (text : Text) (start stop : Nat) : Text := (text.take stop).drop start

/-- Neighbouring slices make up the slice over both. -/
theorem slice_append (text : Text) {i j k : Nat} (hij : i ≤ j) (hjk : j ≤ k) :
    slice text i j ++ slice text j k = slice text i k := by
  induction text generalizing i j k with
  | nil => simp [slice]
  | cons c text ih =>
    match i, j, k with
    | 0, 0, k => simp [slice]
    | 0, j + 1, k + 1 =>
      have := @ih 0 j k (by omega) (by omega)
      simpa [slice] using this
    | i + 1, j + 1, k + 1 =>
      have := @ih i j k (by omega) (by omega)
      simpa [slice] using this

/-- The text without the spaces it starts with. -/
def trimStart (text : Text) : Text := text.dropWhile isSpace

/-- The text without the spaces it ends with. -/
def trimEnd : Text → Text
  | [] => []
  | c :: rest =>
    match trimEnd rest with
    | [] => if isSpace c then [] else [c]
    | trimmed => c :: trimmed

/-- The text without the spaces at its ends. -/
def trim (text : Text) : Text := trimEnd (trimStart text)

theorem trimEnd_prefix (text : Text) : ∃ spaces, trimEnd text ++ spaces = text := by
  induction text with
  | nil => exact ⟨[], rfl⟩
  | cons c rest ih =>
    obtain ⟨spaces, h⟩ := ih
    by_cases he : trimEnd rest = []
    · by_cases hc : isSpace c
      · exact ⟨c :: rest, by simp [trimEnd, he, hc]⟩
      · exact ⟨rest, by simp [trimEnd, he, hc]⟩
    · refine ⟨spaces, ?_⟩
      obtain ⟨d, t, hd⟩ : ∃ d t, trimEnd rest = d :: t := by
        cases hr : trimEnd rest with
        | nil => exact absurd hr he
        | cons d t => exact ⟨d, t, rfl⟩
      rw [hd] at h
      simp only [trimEnd, hd, List.cons_append]
      exact congrArg (c :: ·) h

/-- Trimming only takes characters away. -/
theorem trim_sublist (text : Text) : (trim text).Sublist text := by
  obtain ⟨spaces, h⟩ := trimEnd_prefix (trimStart text)
  have h1 : (trimEnd (trimStart text)).Sublist (trimStart text) := by
    conv => rhs; rw [← h]
    exact List.sublist_append_left _ _
  exact h1.trans (List.dropWhile_sublist _)

/-- The text with its ASCII letters in lower case. -/
def lower (text : Text) : Text := text.map Char.toLower

/-- The text with its ASCII letters in upper case. -/
def upper (text : Text) : Text := text.map Char.toUpper

/-- Are the two texts equal up to the case of ASCII letters? -/
def same (s t : Text) : Bool := lower s == lower t

/-- Does the text start with `word`, up to the case of ASCII letters? -/
def starts : (word text : Text) → Bool
  | [], _ => true
  | _ :: _, [] => false
  | w :: word, c :: text => w.toLower == c.toLower && starts word text

end Text

end SqlDialect
