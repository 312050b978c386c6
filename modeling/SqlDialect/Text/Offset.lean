import SqlDialect.Text

/-!
# Byte offsets

Positions in a text count characters; other programs count the bytes of its UTF-8 form. `byteOffset` and `position?`
convert between the two. An offset inside a character has no position; `nextPosition` takes the next one.

* `position?_byteOffset`: a position is the one of its own offset.
-/

namespace SqlDialect.Text

/-- How many bytes a text takes. -/
def byteLength : Text → Nat
  | [] => 0
  | c :: rest => c.utf8Size + byteLength rest

/-- How many bytes stand before position `i`. -/
def byteOffset (text : Text) (i : Nat) : Nat := byteLength (text.take i)

/-- The position that has `offset` bytes before it, if a character starts or the text ends there. -/
def position? : Text → Nat → Option Nat
  | _, 0 => some 0
  | [], _ + 1 => none
  | c :: rest, offset => if offset < c.utf8Size then none else (position? rest (offset - c.utf8Size)).map (· + 1)

/-- The first position that has at least `offset` bytes before it, or the end of the text. -/
def nextPosition : Text → Nat → Nat
  | _, 0 => 0
  | [], _ + 1 => 0
  | c :: rest, offset => nextPosition rest (offset - c.utf8Size) + 1

/-- A position is the one of its own offset. -/
theorem position?_byteOffset (text : Text) {i : Nat} (h : i ≤ text.length) :
    position? text (byteOffset text i) = some i := by
  induction text generalizing i with
  | nil => simp at h; subst h; rfl
  | cons c rest ih =>
    cases i with
    | zero => simp [byteOffset, byteLength, position?]
    | succ i =>
      have hc : 0 < c.utf8Size := Char.utf8Size_pos c
      have h2 : byteOffset (c :: rest) (i + 1) = c.utf8Size + byteOffset rest i := by
        simp [byteOffset, byteLength]
      have h3 := ih (i := i) (by simpa using h)
      rw [h2]
      cases hn : c.utf8Size + byteOffset rest i with
      | zero => omega
      | succ m =>
        have : ¬ m + 1 < c.utf8Size := by omega
        have h4 : m + 1 - c.utf8Size = byteOffset rest i := by omega
        simp [position?, this, h4, h3]

end SqlDialect.Text
