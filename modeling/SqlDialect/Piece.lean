import SqlDialect.Text

/-!
# Pieces of a statement

A literal runs from a quote to the next quote of the same kind; a quote without a partner is an ordinary character. A
comment is a block from `/*` to `*/` (or to the end of the text), or runs from `#` or `--` to the end of the line; the
two dashes need a blank or the end of the text after them. Literals and comments are *regions*: no search and no match
of brackets looks inside them. All other characters are *code*.

`pieces` cuts a text into code characters and regions. What a text starts with does not depend on what stands before
it, so a scan may begin anywhere.

* `textOf_pieces`: the pieces make up the text.
* `region_ne_nil`: no region is empty.
-/

namespace SqlDialect

/-- The two kinds of region. -/
inductive RegionKind where
  | literal
  | comment
  deriving DecidableEq, Repr

/-- A character of code, or a whole region with its delimiters. -/
inductive Piece where
  | code (c : Char)
  | region (kind : RegionKind) (text : Text)
  deriving DecidableEq, Repr

namespace Piece

/-- The characters of a piece. -/
def text : Piece → Text
  | code c => [c]
  | region _ t => t

/-- Is the piece code? -/
def isCode : Piece → Bool
  | code _ => true
  | region _ _ => false

end Piece

/-- The text that the pieces make up. -/
def textOf (ps : List Piece) : Text := ps.flatMap Piece.text

@[simp] theorem textOf_nil : textOf [] = [] := rfl

@[simp] theorem textOf_cons (p : Piece) (ps : List Piece) : textOf (p :: ps) = p.text ++ textOf ps := rfl

@[simp] theorem textOf_append (ps qs : List Piece) : textOf (ps ++ qs) = textOf ps ++ textOf qs := by
  simp [textOf]

/-! ## What a text starts with -/

/-- How many characters after the quote `q` belong to the literal that it opens, if it opens one. -/
def literalTail? (q : Char) (rest : Text) : Option Nat :=
  if isQuote q then (rest.idxOf? q).map (· + 1) else none

/-- How many characters are left on the line. -/
def lineLength : Text → Nat
  | [] => 0
  | c :: rest => if c = '\n' then 0 else lineLength rest + 1

/-- How many characters there are up to the end of the first `*/`, or to the end of the text. -/
def blockLength : Text → Nat
  | [] => 0
  | '*' :: '/' :: _ => 2
  | _ :: rest => blockLength rest + 1

/-- How many characters after `c` belong to the comment that `c` opens, if it opens one. -/
def commentTail? (c : Char) (rest : Text) : Option Nat :=
  match c, rest with
  | '#', _ => some (lineLength rest)
  | '/', '*' :: body => some (blockLength body + 1)
  | '-', '-' :: body => if body.head?.all isBlank then some (lineLength body + 1) else none
  | _, _ => none

/-- The kind of region that `c` opens and the number of its characters after `c`. -/
def regionTail? (c : Char) (rest : Text) : Option (RegionKind × Nat) :=
  match literalTail? c rest with
  | some n => some (.literal, n)
  | none => (commentTail? c rest).map (RegionKind.comment, ·)

/-! ## Cutting a text -/

/-- The pieces of a text, from left to right. -/
def pieces : Text → List Piece
  | [] => []
  | c :: rest =>
    match regionTail? c rest with
    | some (kind, n) => .region kind (c :: rest.take n) :: pieces (rest.drop n)
    | none => .code c :: pieces rest
termination_by text => text.length
decreasing_by all_goals simp only [List.length_drop, List.length_cons]; omega

@[simp] theorem pieces_nil : pieces [] = [] := by simp [pieces]

theorem pieces_region {c : Char} {rest : Text} {kind : RegionKind} {n : Nat}
    (h : regionTail? c rest = some (kind, n)) :
    pieces (c :: rest) = .region kind (c :: rest.take n) :: pieces (rest.drop n) := by
  rw [pieces, h]

theorem pieces_code {c : Char} {rest : Text} (h : regionTail? c rest = none) :
    pieces (c :: rest) = .code c :: pieces rest := by
  rw [pieces, h]

/-- The pieces of a text make up the text. -/
@[simp] theorem textOf_pieces (text : Text) : textOf (pieces text) = text := by
  fun_induction pieces text with
  | case1 => rfl
  | case2 c rest kind n h ih => simp [Piece.text, ih]
  | case3 c rest h ih => simp [Piece.text, ih]

/-- No region is empty. -/
theorem region_ne_nil {text t : Text} {kind : RegionKind} (h : Piece.region kind t ∈ pieces text) : t ≠ [] := by
  fun_induction pieces text with
  | case1 => cases h
  | case2 c rest k n hr ih =>
    rcases List.mem_cons.mp h with h | h
    · cases h; simp
    · exact ih h
  | case3 c rest hr ih =>
    rcases List.mem_cons.mp h with h | h
    · cases h
    · exact ih h

end SqlDialect
