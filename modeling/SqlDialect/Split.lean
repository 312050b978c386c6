import SqlDialect.Bracket

/-!
# Splitting at a separator

A text is cut where a separator stands outside brackets, literals and comments. Closing brackets without a partner
leave the depth at zero.

* `joinParts_splitPieces`: the parts with the separator between them are the text again.
-/

namespace SqlDialect

/-- The first part and the later parts of pieces that start at bracket depth `depth`. -/
def splitPieces (sep : Char) (depth : Nat) : List Piece → Text × List Text
  | [] => ([], [])
  | .region _ t :: ps =>
    let (part, parts) := splitPieces sep depth ps
    (t ++ part, parts)
  | .code c :: ps =>
    if isOpener c then
      let (part, parts) := splitPieces sep (depth + 1) ps
      (c :: part, parts)
    else if isCloser c then
      let (part, parts) := splitPieces sep (depth - 1) ps
      (c :: part, parts)
    else if c = sep ∧ depth = 0 then
      let (part, parts) := splitPieces sep depth ps
      ([], part :: parts)
    else
      let (part, parts) := splitPieces sep depth ps
      (c :: part, parts)

/-- The parts of a text between the separators at bracket depth zero. -/
def splitTopLevel (text : Text) (sep : Char) : List Text :=
  let (part, parts) := splitPieces sep 0 (pieces text)
  part :: parts

/-- The text of a first part and later parts with the separator between them. -/
def joinParts (sep : Char) (part : Text) (parts : List Text) : Text := part ++ parts.flatMap (sep :: ·)

/-- The parts with the separator between them are the text again. -/
theorem joinParts_splitPieces (sep : Char) (depth : Nat) (ps : List Piece) :
    joinParts sep (splitPieces sep depth ps).1 (splitPieces sep depth ps).2 = textOf ps := by
  fun_induction splitPieces sep depth ps with
  | case1 => rfl
  | case2 depth kind t ps part parts h ih => simpa [joinParts, Piece.text, h] using ih
  | case3 depth c ps ho part parts h ih => simpa [joinParts, Piece.text, h] using ih
  | case4 depth c ps ho hc part parts h ih => simpa [joinParts, Piece.text, h] using ih
  | case5 depth c ps ho hc hs part parts h ih =>
    have : joinParts sep part parts = textOf ps := by simpa [h] using ih
    simpa [joinParts, Piece.text, hs.1] using this
  | case6 depth c ps ho hc hs part parts h ih => simpa [joinParts, Piece.text, h] using ih

end SqlDialect
