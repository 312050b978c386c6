import SqlDialect.Keyword

/-!
# Function names

Some functions have another name in the embedded dialect. A call is renamed where the name with its opening
parenthesis stands outside literals and comments and no word character stands in front. The names are replaced one
after the other, in the order of `renames`.
-/

namespace SqlDialect.FunctionName

/-- A spelling with the opening parenthesis, and the one that takes its place. -/
structure Rename where
  old : Text
  new : Text
  deriving DecidableEq, Repr

/-- The functions with another name. -/
@[irreducible] def renames : List Rename :=
  [⟨"if(".toList, "iif(".toList⟩, ⟨"std(".toList, "stdev(".toList⟩, ⟨"stddev(".toList, "stdev(".toList⟩]

/-- The text with the calls of one function renamed, where `before` is the character in front of it. -/
def renameFrom (r : Rename) (before : Option Char) (text : Text) : Text :=
  match _h : findKeyword r.old before text with
  | none => text
  | some n =>
    if _hr : r.old = [] then text
    else text.take n ++ r.new ++ renameFrom r r.new.getLast? (text.drop (n + r.old.length))
termination_by text.length
decreasing_by
  have h1 := findKeyword_add_le _h
  have h2 := List.length_pos_iff.mpr _hr
  simp only [List.length_drop]
  omega

/-- The text with every function under its embedded name. -/
def convert (text : Text) : Text := renames.foldl (fun text r => renameFrom r none text) text

end SqlDialect.FunctionName
