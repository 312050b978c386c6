import SqlDialect.Bracket
import SqlDialect.Keyword
import SqlDialect.StageError
import SqlDialect.Interval.Basic

/-!
# Reading the terms of an interval

A term is the keyword INTERVAL, an amount and a unit. The amount may hold brackets, literals and comments; the unit is
the first word of its top level that names one and is not a function's name. Terms chain: `- interval 5 second -
interval 2 minute` are two terms of one expression.

* `findUnit_lt`: the unit ends behind where it starts.
* `readTerms_pos`: a term takes up at least one character.
-/

namespace SqlDialect.Interval

/-- The keyword that every term starts with. -/
@[irreducible] def keyword : Text := "interval".toList

/-- The units without a single date modifier. -/
@[irreducible] def unitsWithoutModifier : List Text :=
  ["microsecond", "week", "quarter", "second_microsecond", "minute_microsecond", "minute_second", "hour_microsecond",
    "hour_second", "hour_minute", "day_microsecond", "day_second", "day_minute", "day_hour", "year_month"].map
    String.toList

/-! ## Blanks and comments -/

/-- How many characters of blanks and comments a text starts with. -/
def triviaLength : Text → Nat
  | [] => 0
  | c :: rest =>
    if isBlank c then triviaLength rest + 1
    else
      match commentTail? c rest with
      | some n => triviaLength (rest.drop n) + (n + 1)
      | none => 0
termination_by text => text.length
decreasing_by all_goals simp only [List.length_drop, List.length_cons]; omega

/-! ## The unit -/

/-- A delimiter that ends an amount before a unit is found. -/
def endsAmount (c : Char) : Bool := isCloser c || c = ',' || c = ';'

/-- The unit of a term with the positions where its word starts and stops. The text `source` starts with the keyword;
position `i` of it is reached, `before` is the character in front and `rest` what follows. A word before an opening
parenthesis is a function's name and belongs to the amount. -/
def findUnit (source : Text) (before : Char) (i : Nat) (rest : Text) : Except StageError (TimeUnit × Nat × Nat) :=
  match rest with
  | [] => .error ⟨.unitMissing, source.take i⟩
  | c :: rest =>
    if isQuote c || isOpener c then
      match closingOffset? (c :: rest) with
      | none => .error ⟨.amountUnbalanced, source.take (i + 1)⟩
      | some n => findUnit source ((c :: rest.take n).getLast (by simp)) (i + n + 1) (rest.drop n)
    else
      match commentTail? c rest with
      | some n => findUnit source ((c :: rest.take n).getLast (by simp)) (i + n + 1) (rest.drop n)
      | none =>
        if endsAmount c then .error ⟨.unitMissing, source.take i⟩
        else if isWord c && !isWord before && before ≠ '.' then
          let word := c :: rest.takeWhile isWord
          let after := rest.dropWhile isWord
          let stop := i + word.length
          if (after.dropWhile isBlank).head? = some '(' then findUnit source (word.getLast (by simp [word])) stop after
          else if unitsWithoutModifier.any (Text.same word) then
            .error ⟨.unitWithoutModifier word, source.take stop⟩
          else
            match TimeUnit.ofWord? word with
            | some unit => .ok (unit, i, stop)
            | none => findUnit source (word.getLast (by simp [word])) stop after
        else findUnit source c (i + 1) rest
termination_by rest.length
decreasing_by
  all_goals simp only [List.length_drop, List.length_cons]
  all_goals first | omega | exact Nat.lt_succ_of_le (List.dropWhile_sublist _).length_le

/-- The unit ends behind where it starts, and not before where the search starts. -/
theorem findUnit_lt {source : Text} {before : Char} {i : Nat} {rest : Text} {unit : TimeUnit} {start stop : Nat}
    (h : findUnit source before i rest = .ok (unit, start, stop)) : i ≤ start ∧ start < stop := by
  fun_induction findUnit source before i rest with
  | case1 | case2 | case5 | case7 => cases h
  | case3 _ _ _ _ _ _ _ ih | case4 _ _ _ _ _ _ _ ih => have := ih h; omega
  | case6 _ i _ _ _ _ _ _ word _ wordStop _ ih =>
    have h1 : i ≤ wordStop := Nat.le_add_right _ _
    have := ih h
    omega
  | case8 _ i _ _ _ _ _ _ word =>
    have h1 : 0 < word.length := Nat.succ_pos _
    simp only [Except.ok.injEq, Prod.mk.injEq] at h
    obtain ⟨_, hstart, hstop⟩ := h
    rw [← hstart, ← hstop]
    exact ⟨Nat.le_refl _, Nat.lt_add_of_pos_right h1⟩
  | case9 _ i _ _ _ _ _ _ word _ wordStop _ _ _ ih =>
    have h1 : i ≤ wordStop := Nat.le_add_right _ _
    have := ih h
    omega
  | case10 _ _ _ _ _ _ _ _ ih => have := ih h; omega

/-! ## The amount -/

/-- How deep the parentheses of a text nest, starting from `depth`. A closing parenthesis without a partner leaves the
depth at zero. -/
def nesting (depth : Nat) : Text → Nat
  | [] => depth
  | '(' :: rest => nesting (depth + 1) rest
  | ')' :: rest => max depth (nesting (depth - 1) rest)
  | _ :: rest => nesting depth rest

/-- Does an amount hold a minus sign and parentheses within parentheses? -/
def nestsSubtraction (amount : Text) : Bool := 1 < nesting 0 amount && amount.contains '-'

/-! ## Terms -/

/-- The term that `source` starts with, and its length. -/
def readTerm (sign : Sign) (source : Text) : Except StageError (Term × Nat) :=
  match findUnit source 'l' keyword.length (source.drop keyword.length) with
  | .error e => .error e
  | .ok (unit, start, stop) =>
    let amount := Text.trim (Text.slice source keyword.length start)
    if amount.isEmpty then .error ⟨.amountMissing, source.take stop⟩
    else if nestsSubtraction amount then .error ⟨.nestedSubtraction, source.take stop⟩
    else .ok (⟨sign, amount, unit⟩, stop)

/-- The sign of a further term in a text behind a term, and the length of what stands before its keyword. -/
def nextSign? (text : Text) : Option (Sign × Nat) :=
  let skipped := triviaLength text
  match text.drop skipped with
  | [] => none
  | c :: rest =>
    match Sign.ofChar? c with
    | none => none
    | some sign =>
      let between := triviaLength rest
      if startsKeyword keyword (c :: rest.take between).getLast? (rest.drop between) then
        some (sign, skipped + 1 + between)
      else none

theorem nextSign?_pos {text : Text} {sign : Sign} {n : Nat} (h : nextSign? text = some (sign, n)) :
    0 < n ∧ 0 < text.length := by
  unfold nextSign? at h
  simp only at h
  split at h
  · cases h
  · next c rest hd =>
    have hl : 0 < text.length := by
      cases text with
      | nil => simp at hd
      | cons _ _ => simp
    split at h
    · cases h
    · split at h
      · cases h; exact ⟨by omega, hl⟩
      · cases h

/-- The further terms of a text behind a term, and their length. -/
def readChain (text : Text) : Except StageError (List Term × Nat) :=
  match _h : nextSign? text with
  | none => .ok ([], 0)
  | some (sign, skipped) =>
    match readTerm sign (text.drop skipped) with
    | .error e => .error e
    | .ok (term, n) =>
      match readChain (text.drop (skipped + n)) with
      | .error e => .error e
      | .ok (terms, m) => .ok (term :: terms, skipped + n + m)
termination_by text.length
decreasing_by
  have := nextSign?_pos _h
  simp only [List.length_drop]
  omega

/-- All terms that `source` starts with, the first with the given sign, and their length. -/
def readTerms (sign : Sign) (source : Text) : Except StageError (List Term × Nat) :=
  match readTerm sign source with
  | .error e => .error e
  | .ok (term, n) =>
    match readChain (source.drop n) with
    | .error e => .error e
    | .ok (terms, m) => .ok (term :: terms, n + m)

/-- What is read where a term is found: its unit, and the amount between the keyword and the unit. -/
theorem readTerm_ok {sign : Sign} {source : Text} {term : Term} {n : Nat} (h : readTerm sign source = .ok (term, n)) :
    ∃ start, findUnit source 'l' keyword.length (source.drop keyword.length) = .ok (term.unit, start, n) ∧
      term.amount = Text.trim (Text.slice source keyword.length start) ∧ term.amount ≠ [] ∧
      nestsSubtraction term.amount = false ∧ term.sign = sign := by
  unfold readTerm at h
  split at h
  · cases h
  · next unit start stop hu =>
    simp only at h
    split at h
    · cases h
    · next hne =>
      split at h
      · cases h
      · next hnests =>
        cases h
        exact ⟨start, hu, rfl, by simpa using hne, by simpa using hnests, rfl⟩

/-- A term takes up at least its keyword. -/
theorem readTerm_lt {sign : Sign} {source : Text} {term : Term} {n : Nat} (h : readTerm sign source = .ok (term, n)) :
    keyword.length < n := by
  obtain ⟨start, hu, -⟩ := readTerm_ok h
  have := findUnit_lt hu
  omega

/-- What is read where terms are found: the first term and the chain of the others. -/
theorem readTerms_ok {sign : Sign} {source : Text} {terms : List Term} {m : Nat}
    (h : readTerms sign source = .ok (terms, m)) : ∃ term n further k, readTerm sign source = .ok (term, n) ∧
      readChain (source.drop n) = .ok (further, k) ∧ terms = term :: further ∧ m = n + k := by
  unfold readTerms at h
  split at h
  · cases h
  · next term n hterm =>
    split at h
    · cases h
    · next further k hchain =>
      cases h
      exact ⟨term, n, further, k, hterm, hchain, rfl, rfl⟩

/-- The terms take up at least the keyword of the first. -/
theorem readTerms_lt {sign : Sign} {source : Text} {terms : List Term} {n : Nat}
    (h : readTerms sign source = .ok (terms, n)) : keyword.length < n := by
  obtain ⟨term, m, further, k, hterm, -, -, rfl⟩ := readTerms_ok h
  have := readTerm_lt hterm
  omega

end SqlDialect.Interval
