import SqlDialect.Piece

/-!
# Line comments

The embedded dialect does not know `#` comments, so each becomes a block comment. A carriage return at its end stays
behind the block, and `*/` inside is taken apart so that the block ends where it should. All other pieces stay.
-/

namespace SqlDialect.Comment

/-- The text with every `*/` written as `* /`. -/
def breakEnds : Text → Text
  | '*' :: '/' :: rest => '*' :: ' ' :: '/' :: breakEnds rest
  | c :: rest => c :: breakEnds rest
  | [] => []

/-- The block comment with the given body. A carriage return that ends the body is put behind the block. -/
def block (body : Text) : Text :=
  if body.getLast? = some '\r' then ['/', '*'] ++ breakEnds body.dropLast ++ ['*', '/', '\r']
  else ['/', '*'] ++ breakEnds body ++ ['*', '/']

/-- The embedded form of a piece. -/
def convertPiece : Piece → Text
  | .region .comment ('#' :: body) => block body
  | p => p.text

/-- The text with every `#` comment as a block comment. -/
def convert (text : Text) : Text := (pieces text).flatMap convertPiece

/-- A text without `#` comments stays as it is. -/
theorem convert_eq_self {text : Text} (h : ∀ body, Piece.region .comment ('#' :: body) ∉ pieces text) :
    convert text = text := by
  conv => rhs; rw [← textOf_pieces text]
  unfold convert textOf
  rw [List.flatMap_def, List.flatMap_def, List.map_congr_left]
  intro p hp
  unfold convertPiece
  split
  · next body => exact absurd hp (h body)
  · rfl

end SqlDialect.Comment
