import SqlDialect.Keyword

/-!
# Over-nested joins

The server exports a join of many tables with one opening parenthesis for each join, all in a run behind FROM, and the
closing ones spread over the joins. A run of more than `threshold` opening parentheses is removed, together with the
closing ones of the same level that follow. Where there are too few of those, only as many opening parentheses go, the
innermost ones.

* `unnest_length_le`: removing parentheses does not lengthen a text.
-/

namespace SqlDialect.View

/-- The longest run of opening parentheses that is left as it is. -/
def threshold : Nat := 10

/-- A run with fewer closing parentheses behind it than it has opening ones. -/
structure Shortfall where
  openers : Nat
  closers : Nat
  deriving DecidableEq, Repr

/-- The run of opening parentheses and blanks that a text starts with. -/
def openingRun (text : Text) : Text := text.takeWhile fun c => c = '(' || isBlank c

/-- The text without the first `limit` closing parentheses that close none of its own opening ones, and how many of
them there were. Literals are passed over. -/
def dropClosers (limit depth : Nat) (text : Text) : Text × Nat :=
  match text with
  | [] => ([], 0)
  | c :: rest =>
    if limit = 0 then (c :: rest, 0)
    else
      match literalTail? c rest with
      | some n =>
        let (kept, dropped) := dropClosers limit depth (rest.drop n)
        (c :: rest.take n ++ kept, dropped)
      | none =>
        if c = ')' ∧ depth = 0 then
          let (kept, dropped) := dropClosers (limit - 1) depth rest
          (kept, dropped + 1)
        else
          let depth := if c = '(' then depth + 1 else if c = ')' then depth - 1 else depth
          let (kept, dropped) := dropClosers limit depth rest
          (c :: kept, dropped)
termination_by text.length
decreasing_by all_goals simp only [List.length_drop, List.length_cons]; omega

/-- A run without its opening parentheses behind the first `count`. -/
def keepOpeners : Nat → Text → Text
  | _, [] => []
  | 0, '(' :: rest => keepOpeners 0 rest
  | n + 1, '(' :: rest => '(' :: keepOpeners n rest
  | n, c :: rest => c :: keepOpeners n rest

/-- The text behind a FROM without a run that is too long, and how far the closing parentheses fell short. -/
def unnest (text : Text) : Text × Option Shortfall :=
  let run := openingRun text
  let openers := run.count '('
  if openers ≤ threshold then (text, none)
  else
    let (kept, closers) := dropClosers openers 0 (text.drop run.length)
    (keepOpeners (openers - closers) run ++ kept, if closers < openers then some ⟨openers, closers⟩ else none)

theorem dropClosers_length_le (limit depth : Nat) (text : Text) :
    (dropClosers limit depth text).1.length ≤ text.length := by
  fun_induction dropClosers limit depth text with
  | case1 => simp
  | case2 => simp
  | case3 limit depth c rest hl n hn kept dropped h ih =>
    rw [h] at ih
    simp only [List.length_drop, List.length_append, List.length_cons, List.length_take] at ih ⊢
    omega
  | case4 limit depth c rest hl hn hc kept dropped h ih =>
    rw [h] at ih
    simp only [List.length_cons] at ih ⊢
    omega
  | case5 limit depth c rest hl hn hc d kept dropped h ih =>
    rw [h] at ih
    simp only [List.length_cons] at ih ⊢
    omega

theorem keepOpeners_length_le (count : Nat) (run : Text) : (keepOpeners count run).length ≤ run.length := by
  fun_induction keepOpeners count run with
  | case1 => simp
  | case2 rest ih => simp only [List.length_cons]; omega
  | case3 n rest ih => simp only [List.length_cons]; omega
  | case4 n c rest _ _ ih => simp only [List.length_cons]; omega

/-- Removing parentheses does not lengthen a text. -/
theorem unnest_length_le (text : Text) : (unnest text).1.length ≤ text.length := by
  unfold unnest
  simp only
  split
  · simp
  · have h1 := keepOpeners_length_le
      ((openingRun text).count '(' -
        (dropClosers ((openingRun text).count '(') 0 (text.drop (openingRun text).length)).2) (openingRun text)
    have h2 := dropClosers_length_le ((openingRun text).count '(') 0 (text.drop (openingRun text).length)
    have h3 : (openingRun text).length ≤ text.length := (List.takeWhile_sublist _).length_le
    simp only [List.length_append, List.length_drop] at h2 ⊢
    omega

/-- The keyword that a join stands behind. -/
@[irreducible] def fromWord : Text := "from".toList

/-- The text with every run behind a FROM outside literals and comments unnested, where `before` is the character in
front of it, and the shortfalls from left to right. -/
def unnestFrom (before : Option Char) (text : Text) : Text × List Shortfall :=
  match _h : findKeyword fromWord before text with
  | none => (text, [])
  | some n =>
    let stop := n + fromWord.length
    let step := unnest (text.drop stop)
    let (later, shortfalls) := unnestFrom fromWord.getLast? step.1
    (text.take stop ++ later, step.2.toList ++ shortfalls)
termination_by text.length
decreasing_by
  have h1 := findKeyword_add_le _h
  have h2 : 0 < fromWord.length := by decide +kernel
  have h3 := unnest_length_le (text.drop (n + fromWord.length))
  rw [List.length_drop] at h3
  omega

/-- The definition without redundant parentheses around its joins. -/
def removeRedundantBrackets (definition : Text) : Text := (unnestFrom none definition).1

/-- The runs of a definition with too few closing parentheses. -/
def shortfalls (definition : Text) : List Shortfall := (unnestFrom none definition).2

end SqlDialect.View
