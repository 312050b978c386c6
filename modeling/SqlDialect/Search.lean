import SqlDialect.Bracket
import SqlDialect.Keyword
import SqlDialect.Text.Offset

/-!
# Searches by byte offset

The searches of the library take and give positions; these take and give offsets in the UTF-8 form of a text. An
offset inside a character holds no delimiter, and no word stands there but the empty one.

* `at?_byteOffset`: at the offset of a position, a search gives the offset of what it finds for the position.
-/

namespace SqlDialect.Search

/-- The offset of what a search for the position at an offset finds. -/
def at? (search : Text → Nat → Option Nat) (text : Text) (offset : Nat) : Option Nat :=
  (Text.position? text offset).bind fun i => (search text i).map (Text.byteOffset text)

/-- At the offset of a position, a search gives the offset of what it finds for the position. -/
theorem at?_byteOffset (search : Text → Nat → Option Nat) (text : Text) {i : Nat} (h : i ≤ text.length) :
    at? search text (Text.byteOffset text i) = (search text i).map (Text.byteOffset text) := by
  rw [at?, Text.position?_byteOffset text h]
  rfl

/-- The offset of the delimiter that closes the one at an offset. -/
def closing? : Text → Nat → Option Nat := at? findClosing

/-- The offset of the delimiter that opens the one at an offset. -/
def opening? : Text → Nat → Option Nat := at? findOpening

/-- The first offset from the given one on where `word` stands outside literals and comments. -/
def keyword? (word text : Text) (offset : Nat) : Option Nat :=
  match Text.position? text offset with
  | some _ => at? (findKeywordFrom · word ·) text offset
  | none =>
    if word.isEmpty && offset < Text.byteLength text then some offset
    else (findKeywordFrom text word (Text.nextPosition text offset)).map (Text.byteOffset text)

end SqlDialect.Search
