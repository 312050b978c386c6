import SqlDialect.Interval.Term

/-!
# Finding the base of an interval

The base is what stands before the first sign. `boundaryBefore` walks to the left from the sign to where the operand
may start at the earliest: behind an opening bracket, a separator or at the start of the text. `cutAfterStopWords`
then moves the start behind the last clause keyword, and blanks and comments at both ends are dropped.

* `boundaryBefore_lt`: a bracket that bounds the base stands before the sign.
-/

namespace SqlDialect.Interval

/-- The words that end a base when it is read from the left. -/
@[irreducible] def stopWords : List Text :=
  ["select", "distinct", "where", "and", "or", "on", "when", "then", "else", "between", "not", "case", "having", "set",
    "values", "like", "is", "in", "return", "by"].map String.toList

/-- Where the operand before a sign may start. -/
inductive Boundary where
  /-- Behind an opening bracket at this position that is not closed before the sign. -/
  | group (opener : Nat)
  /-- At this position, behind a separator or at the start of the text. -/
  | plain (start : Nat)
  deriving DecidableEq, Repr

/-- The first position of a bounded operand. -/
def Boundary.start : Boundary → Nat
  | group opener => opener + 1
  | plain start => start

/-- A separator that ends a base when it is read from the right. -/
def isSeparator (c : Char) : Bool := c = ',' || c = '=' || c = '<' || c = '>' || c = ';'

/-- The boundary of the operand behind the marks `before`, nearest first. A closing delimiter without a partner is
refused with its position. -/
def boundaryBefore : List Mark → Except Nat Boundary
  | [] => .ok (.plain 0)
  | ⟨_, false⟩ :: before => boundaryBefore before
  | ⟨c, true⟩ :: before =>
    if isQuote c then .error before.length
    else if isCloser c then
      match openingIn [c] before with
      | none => .error before.length
      | some opener => boundaryBefore (before.drop (before.length - opener))
    else if isOpener c then .ok (.group before.length)
    else if isSeparator c then .ok (.plain (before.length + 1))
    else boundaryBefore before
termination_by before => before.length
decreasing_by all_goals simp only [List.length_drop, List.length_cons]; omega

/-- A bracket that bounds the base stands before the sign. -/
theorem boundaryBefore_lt {before : List Mark} {opener : Nat} (h : boundaryBefore before = .ok (.group opener)) :
    opener < before.length := by
  fun_induction boundaryBefore before with
  | case1 => cases h
  | case2 _ _ ih | case8 _ _ _ _ _ _ ih =>
    have := ih h
    simp only [List.length_cons]
    omega
  | case3 | case4 | case7 => cases h
  | case5 _ _ _ _ _ _ ih =>
    have := ih h
    simp only [List.length_drop, List.length_cons] at this ⊢
    omega
  | case6 => cases h; simp

/-! ## The start of the base -/

/-- The position behind the last stop word at the top level of `rest`, as far as position `limit`. Position `i` is
reached, `before` is the character in front, and `start` is the position found so far. Brackets and literals that end
before `limit` are passed over whole, and so is every comment. -/
def stopWordCut (limit : Nat) (before : Option Char) (i start : Nat) (rest : Text) : Nat :=
  match rest with
  | [] => start
  | c :: rest =>
    if limit ≤ i then start
    else if isQuote c || isOpener c then
      match (closingOffset? (c :: rest)).filter (fun n => i + n < limit) with
      | some n => stopWordCut limit (c :: rest.take n).getLast? (i + n + 1) start (rest.drop n)
      | none => stopWordCut limit (some c) (i + 1) start rest
    else
      match commentTail? c rest with
      | some n => stopWordCut limit (c :: rest.take n).getLast? (i + n + 1) start (rest.drop n)
      | none =>
        match stopWords.find? (startsKeyword · before (c :: rest)) with
        | some word =>
          let n := word.length - 1
          stopWordCut limit (c :: rest.take n).getLast? (i + n + 1) (i + n + 1) (rest.drop n)
        | none => stopWordCut limit (some c) (i + 1) start rest
termination_by rest.length
decreasing_by all_goals simp only [List.length_drop, List.length_cons]; omega

/-- The start of the base in the operand from position `start` to the sign at position `signAt`. -/
def baseStart (text : Text) (start signAt : Nat) : Nat :=
  let cut := stopWordCut signAt (text.take start).getLast? start start (text.drop start)
  min (cut + triviaLength (text.drop cut)) signAt

/-! ## The end of the base -/

/-- The end of the slice from `start` to `stop` without the spaces and comments at its end. A comment counts if it
starts within the slice. -/
def trimTriviaEnd (text : Text) (rs : List Region) (start stop : Nat) : Nat :=
  let trimmed := start + (Text.trimEnd (Text.slice text start stop)).length
  match (regionAt? rs (trimmed - 1)).filter (fun r => r.kind = .comment && start ≤ r.start) with
  | none => trimmed
  | some r => if r.start < stop then trimTriviaEnd text rs start r.start else trimmed
termination_by stop

/-! ## The whole base -/

/-- The base before a sign: its text, its first position, and the bracket that it stands behind, if there is one. -/
structure Base where
  text : Text
  start : Nat
  group : Option Nat
  deriving DecidableEq, Repr

/-- The base before the sign at position `signAt`, for an interval whose keyword stops at position `stop`. -/
def readBase (text : Text) (signAt stop : Nat) : Except StageError Base :=
  match boundaryBefore (marksBefore text signAt) with
  | .error i => .error ⟨.baseUnbalanced, Text.slice text i (signAt + 1)⟩
  | .ok boundary =>
    let start := baseStart text boundary.start signAt
    let base := Text.slice text start (trimTriviaEnd text (regions text) start signAt)
    if base.isEmpty then .error ⟨.baseMissing, Text.slice text signAt stop⟩
    else
      match boundary with
      | .group opener => .ok ⟨base, start, some opener⟩
      | .plain _ => .ok ⟨base, start, none⟩

end SqlDialect.Interval
