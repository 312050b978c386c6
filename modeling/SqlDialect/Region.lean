import SqlDialect.Piece

/-!
# The regions of a text by position

`regions` lists the literals and comments of a text with the positions that they cover, `regionAt?` looks a position
up, and `marks` labels every character with whether it is code. Searches that run backwards use these, since what a
character belongs to is only known from the left.

* `regionAt?_covers`: the region found covers the position.
* `length_marks`: there is one mark for each character.
-/

namespace SqlDialect

/-! ## The table of regions -/

/-- A literal or comment at the positions `start`, …, `stop - 1`. -/
structure Region where
  kind : RegionKind
  start : Nat
  stop : Nat
  deriving DecidableEq, Repr

/-- Does the region cover the position? -/
def Region.covers (r : Region) (i : Nat) : Bool := r.start ≤ i && i < r.stop

/-- The regions among the pieces of a text that starts at position `start`. -/
def regionsFrom (start : Nat) : List Piece → List Region
  | [] => []
  | .code _ :: ps => regionsFrom (start + 1) ps
  | .region kind t :: ps => ⟨kind, start, start + t.length⟩ :: regionsFrom (start + t.length) ps

/-- The literals and comments of a text, from left to right. -/
def regions (text : Text) : List Region := regionsFrom 0 (pieces text)

/-- The region that covers a position. -/
def regionAt? (rs : List Region) (i : Nat) : Option Region := rs.find? (·.covers i)

/-- The region found covers the position. -/
theorem regionAt?_covers {rs : List Region} {i : Nat} {r : Region} (h : regionAt? rs i = some r) :
    r.start ≤ i ∧ i < r.stop := by
  have := List.find?_some h
  simpa [Region.covers] using this

/-! ## Characters with their role -/

/-- A character of a text, with whether it is code or stands in a region. -/
structure Mark where
  char : Char
  isCode : Bool
  deriving DecidableEq, Repr

/-- The marks of the characters that the pieces make up. -/
def marksOf : List Piece → List Mark
  | [] => []
  | .code c :: ps => ⟨c, true⟩ :: marksOf ps
  | .region _ t :: ps => t.map (⟨·, false⟩) ++ marksOf ps

/-- Every character of a text with its role. -/
def marks (text : Text) : List Mark := marksOf (pieces text)

theorem map_char_marksOf (ps : List Piece) : (marksOf ps).map Mark.char = textOf ps := by
  induction ps with
  | nil => rfl
  | cons p ps ih =>
    cases p with
    | code c => simp [marksOf, Piece.text, ih]
    | region k t => simp [marksOf, Piece.text, ih, Function.comp_def]

/-- The marks carry the characters of the text in their order. -/
theorem map_char_marks (text : Text) : (marks text).map Mark.char = text := by
  rw [marks, map_char_marksOf, textOf_pieces]

/-- There is one mark for each character. -/
theorem length_marks (text : Text) : (marks text).length = text.length := by
  conv => rhs; rw [← map_char_marks text]
  simp

end SqlDialect
