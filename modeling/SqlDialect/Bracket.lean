import SqlDialect.Region

/-!
# Matching brackets and quotes

The brackets `(`, `[` and `{` nest; literals and comments between them are passed over whole. A quote is closed by the
next quote of its kind. `findClosing` looks from an opening delimiter to the right, `findOpening` from a closing one
to the left.

* `closingOffset?_lt`: the closing delimiter stands within the text.
* `openingIn_lt`: the opening bracket stands before the closing one.
-/

namespace SqlDialect

/-! ## The three kinds of bracket -/

/-- The bracket that closes the given one. -/
def closerOf? : Char → Option Char
  | '(' => some ')'
  | '[' => some ']'
  | '{' => some '}'
  | _ => none

/-- The bracket that opens the given one. -/
def openerOf? : Char → Option Char
  | ')' => some '('
  | ']' => some '['
  | '}' => some '{'
  | _ => none

/-- Is the character an opening bracket? -/
def isOpener (c : Char) : Bool := (closerOf? c).isSome

/-- Is the character a closing bracket? -/
def isCloser (c : Char) : Bool := (openerOf? c).isSome

/-- A bracket is closed by exactly the bracket that it opens. -/
theorem closerOf?_eq_some_iff {c d : Char} : closerOf? c = some d ↔ openerOf? d = some c := by
  constructor
  · intro h
    unfold closerOf? at h
    split at h <;> cases h <;> rfl
  · intro h
    unfold openerOf? at h
    split at h <;> cases h <;> rfl

/-! ## To the right -/

/-- How many characters stand before the bracket that closes the last of `stack`, the brackets opened so far with the
innermost first. A bracket of the wrong kind, or a quote without a partner, ends the search. -/
def closingIn (stack : List Char) : Text → Option Nat
  | [] => none
  | c :: rest =>
    match regionTail? c rest with
    | some (_, n) => (closingIn stack (rest.drop n)).map (· + (n + 1))
    | none =>
      if isQuote c then none
      else if isOpener c then (closingIn (c :: stack) rest).map (· + 1)
      else
        match openerOf? c, stack with
        | none, _ => (closingIn stack rest).map (· + 1)
        | some _, [] => none
        | some o, top :: outer =>
          if top ≠ o then none
          else if outer.isEmpty then some 0
          else (closingIn outer rest).map (· + 1)
termination_by text => text.length
decreasing_by all_goals simp only [List.length_drop, List.length_cons]; omega

/-- How far the delimiter that a text starts with is from the one that closes it. -/
def closingOffset? : Text → Option Nat
  | [] => none
  | c :: rest =>
    if isQuote c then (rest.idxOf? c).map (· + 1)
    else if isOpener c then (closingIn [c] rest).map (· + 1)
    else none

/-- The position of the delimiter that closes the one at position `i`. -/
def findClosing (text : Text) (i : Nat) : Option Nat := (closingOffset? (text.drop i)).map (i + ·)

theorem lt_of_regionTail? {c : Char} {rest : Text} {kind : RegionKind} {n : Nat}
    (h : regionTail? c rest = some (kind, n)) : n ≤ rest.length := by
  have hline : ∀ t : Text, lineLength t ≤ t.length := fun t => by
    induction t with
    | nil => simp [lineLength]
    | cons d t ih => simp only [lineLength]; split <;> (simp only [List.length_cons]; omega)
  have hblock : ∀ t : Text, blockLength t ≤ t.length := fun t => by
    fun_induction blockLength t <;> simp_all
  unfold regionTail? at h
  split at h
  · next m hm =>
    cases h
    unfold literalTail? at hm
    split at hm
    · obtain ⟨i, hi, rfl⟩ := Option.map_eq_some_iff.mp hm
      obtain ⟨hlt, _⟩ := List.findIdx?_eq_some_iff_getElem.mp (by simpa [List.idxOf?] using hi)
      omega
    · cases hm
  · obtain ⟨m, hm, he⟩ := Option.map_eq_some_iff.mp h
    cases he
    unfold commentTail? at hm
    split at hm
    · cases hm; exact hline _
    · cases hm; have := hblock ‹Text›; simp; omega
    · split at hm
      · cases hm; have := hline ‹Text›; simp; omega
      · cases hm
    · cases hm

theorem closingIn_lt {stack : List Char} {text : Text} {n : Nat} (h : closingIn stack text = some n) :
    n < text.length := by
  fun_induction closingIn stack text generalizing n with
  | case1 => cases h
  | case2 stack c rest k m hr ih =>
    obtain ⟨i, hi, rfl⟩ := Option.map_eq_some_iff.mp h
    have h1 := ih hi
    have h2 := lt_of_regionTail? hr
    simp only [List.length_drop] at h1
    simp only [List.length_cons]
    omega
  | case3 => cases h
  | case4 stack c rest _ _ _ ih | case5 stack c rest _ _ _ _ ih =>
    obtain ⟨i, hi, rfl⟩ := Option.map_eq_some_iff.mp h
    have := ih hi
    simp only [List.length_cons]
    omega
  | case6 => cases h
  | case7 => cases h
  | case8 => cases h; simp
  | case9 c rest _ _ _ o top outer _ _ _ ih =>
    obtain ⟨i, hi, rfl⟩ := Option.map_eq_some_iff.mp h
    have := ih hi
    simp only [List.length_cons]
    omega

/-- The closing delimiter stands within the text. -/
theorem closingOffset?_lt {text : Text} {n : Nat} (h : closingOffset? text = some n) : n < text.length := by
  unfold closingOffset? at h
  split at h
  · cases h
  · next c rest =>
    split at h
    · next hq =>
      have : regionTail? c rest = some (.literal, n) := by simp [regionTail?, literalTail?, hq, h]
      have := lt_of_regionTail? this
      simp only [List.length_cons]
      omega
    · split at h
      · obtain ⟨i, hi, rfl⟩ := Option.map_eq_some_iff.mp h
        have := closingIn_lt hi
        simp only [List.length_cons]
        omega
      · cases h

/-! ## To the left -/

/-- The position of the bracket that opens the last of `stack`, the brackets closed so far with the innermost first,
among the marks before them, nearest first. -/
def openingIn (stack : List Char) : List Mark → Option Nat
  | [] => none
  | ⟨_, false⟩ :: before => openingIn stack before
  | ⟨c, true⟩ :: before =>
    if isCloser c then openingIn (c :: stack) before
    else
      match closerOf? c, stack with
      | none, _ => openingIn stack before
      | some _, [] => none
      | some d, top :: outer =>
        if top ≠ d then none
        else if outer.isEmpty then some before.length
        else openingIn outer before

/-- The opening bracket stands before the closing one. -/
theorem openingIn_lt {stack : List Char} {before : List Mark} {n : Nat} (h : openingIn stack before = some n) :
    n < before.length := by
  fun_induction openingIn stack before with
  | case1 => cases h
  | case2 _ _ _ ih | case3 _ _ _ _ ih | case4 _ _ _ _ _ ih | case8 _ _ _ _ _ _ _ _ _ ih =>
    have := ih h
    simp only [List.length_cons]
    omega
  | case5 => cases h
  | case6 => cases h
  | case7 => cases h; simp

/-- The marks of a text before position `i`, nearest first. -/
def marksBefore (text : Text) (i : Nat) : List Mark := ((marks text).take i).reverse

theorem length_marksBefore_le (text : Text) (i : Nat) : (marksBefore text i).length ≤ i := by
  rw [marksBefore, List.length_reverse, List.length_take]
  exact Nat.min_le_left _ _

/-- The position of the delimiter that opens the one at position `i`. A quote must be the last character of a literal
of its kind. -/
def findOpening (text : Text) (i : Nat) : Option Nat :=
  match text[i]? with
  | none => none
  | some c =>
    if isQuote c then
      match regionAt? (regions text) i with
      | some r => if r.stop = i + 1 ∧ text[r.start]? = some c then some r.start else none
      | none => none
    else if isCloser c then openingIn [c] (marksBefore text i)
    else none

end SqlDialect
