import SqlDialect.Interval.Convert
import SqlDialect.Proofs.Keyword
import SqlDialect.Proofs.Nesting

/-!
# The pieces of a term

The terms of an interval expression are read from the text behind the keyword. What is passed over stands between two
pieces of the text everywhere, and the brackets and quotes of an amount match.

* `Interval.pieces_trivia`: blanks and comments are whole pieces.
* `Interval.findUnit_steps`: what the search for a unit passes over.
* `Interval.findUnit_pieces`: the amount before a unit is made of whole pieces, and its brackets match.
* `Interval.readTerms_split`, `Interval.readTerms_pieces`: the terms of an expression, with what stands between them.
-/

namespace SqlDialect.Interval

/-! ## Blanks and comments -/

/-- A space or a comment. -/
def isTrivia : Piece → Bool
  | .code c => isSpace c
  | .region kind _ => kind = .comment

/-- A space, a sign, a grouping parenthesis or a comment. -/
def isDropped : Piece → Bool
  | .code c => isSpace c || (Sign.ofChar? c).isSome || c = '(' || c = ')'
  | .region kind _ => kind = .comment

theorem isDropped_of_isTrivia {p : Piece} (h : isTrivia p = true) : isDropped p = true := by
  cases p with
  | code c => simp only [isTrivia] at h; simp [isDropped, h]
  | region kind t => exact h

/-- Blanks and comments are whole pieces, and neither a blank nor a comment follows them. -/
theorem pieces_trivia (text : Text) :
    ∃ ds : List Piece, pieces text = ds ++ pieces (text.drop (triviaLength text)) ∧
      (textOf ds).length = triviaLength text ∧ (∀ p ∈ ds, isTrivia p = true) ∧
      (∀ c, .code c ∈ ds → isBlank c = true) ∧
      ∀ c rest, text.drop (triviaLength text) = c :: rest → isBlank c = false ∧ commentTail? c rest = none := by
  fun_induction triviaLength text with
  | case1 => exact ⟨[], rfl, rfl, by simp, by simp, by simp⟩
  | case2 c rest hc ih =>
    obtain ⟨ds, hp, hl, hds, hbl, hb⟩ := ih
    refine ⟨.code c :: ds, ?_, ?_, ?_, ?_, by simpa using hb⟩
    · rw [pieces_code (regionTail?_of_isBlank hc rest), hp]
      simp
    · simp [Piece.text, hl]
    · intro p hm
      rcases List.mem_cons.mp hm with rfl | hm
      · exact isSpace_of_isBlank hc
      · exact hds p hm
    · intro d hm
      rcases List.mem_cons.mp hm with hd | hm
      · cases hd
        exact hc
      · exact hbl d hm
  | case3 c rest hc n hn ih =>
    obtain ⟨ds, hp, hl, hds, hbl, hb⟩ := ih
    have hr := regionTail?_of_commentTail? hn
    have hle := lt_of_regionTail? hr
    have hdrop : (c :: rest).drop (triviaLength (rest.drop n) + (n + 1)) =
        (rest.drop n).drop (triviaLength (rest.drop n)) := by
      rw [← Nat.add_assoc, List.drop_succ_cons, List.drop_drop, Nat.add_comm n]
    rw [hdrop]
    refine ⟨.region .comment (c :: rest.take n) :: ds, ?_, ?_, ?_, fun d hm => hbl d (by simpa using hm), hb⟩
    · rw [pieces_region hr, hp]
      simp
    · rw [textOf_cons, List.length_append, hl]
      simp only [Piece.text, List.length_cons, List.length_take, Nat.min_eq_left hle]
      omega
    · intro p hm
      rcases List.mem_cons.mp hm with rfl | hm
      · rfl
      · exact hds p hm
  | case4 c rest hc hn =>
    refine ⟨[], rfl, rfl, by simp, by simp, fun d t hd => ?_⟩
    rw [List.drop_zero, List.cons.injEq] at hd
    rw [← hd.1, ← hd.2]
    exact ⟨by simpa using hc, hn⟩

/-- No blank follows blanks and comments. -/
theorem not_isBlank_behind_trivia (text : Text) :
    (text.drop (triviaLength text)).head?.any isBlank = false := by
  obtain ⟨-, -, -, -, -, hnext⟩ := pieces_trivia text
  cases hdrop : text.drop (triviaLength text) with
  | nil => rfl
  | cons c rest => exact (hnext c rest hdrop).1

/-! ## The unit -/

/-- No bracket opens a region. -/
theorem regionTail?_of_isOpener {c : Char} (h : isOpener c = true) (rest : Text) : regionTail? c rest = none := by
  have hc : c = '(' ∨ c = '[' ∨ c = '{' := by
    unfold isOpener closerOf? at h
    split at h <;> simp_all
  rcases hc with rfl | rfl | rfl <;> exact regionTail?_of_ne (by decide) (by decide) (by decide) (by decide) rest

/-- A delimiter is code, or it opens a literal. -/
theorem regionTail?_of_delimiter {c : Char} (hc : (isQuote c || isOpener c) = true) (rest : Text) :
    regionTail? c rest = none ∨
      ∃ n, regionTail? c rest = some (.literal, n) ∧ closingOffset? (c :: rest) = some n := by
  rw [Bool.or_eq_true] at hc
  rcases hc with hq | ho
  · cases hl : literalTail? c rest with
    | none =>
      refine .inl (regionTail?_eq_none_iff.mpr ⟨hl, ?_⟩)
      cases hcomment : commentTail? c rest with
      | none => rfl
      | some n =>
        rw [isQuote_of_commentTail? hcomment] at hq
        cases hq
    | some n =>
      rw [literalTail?, if_pos hq] at hl
      exact .inr ⟨n, by rw [regionTail?, literalTail?, if_pos hq, hl], by rw [closingOffset?, if_pos hq, hl]⟩
  · exact .inl (regionTail?_of_isOpener ho rest)

/-- A delimiter and what it encloses. -/
theorem pieces_closing {c : Char} {rest : Text} {n : Nat} (hc : (isQuote c || isOpener c) = true)
    (h : closingOffset? (c :: rest) = some n) :
    ∃ qs : List Piece, pieces (c :: rest) = qs ++ pieces (rest.drop n) ∧ textOf qs = c :: rest.take n ∧
      nest [] qs = some [] := by
  by_cases hq : isQuote c = true
  · rw [closingOffset?, if_pos hq] at h
    have hr : regionTail? c rest = some (.literal, n) := by simp [regionTail?, literalTail?, hq, h]
    exact ⟨[.region .literal (c :: rest.take n)], pieces_region hr, by simp [Piece.text], rfl⟩
  · have ho : isOpener c = true := by simpa [hq] using hc
    rw [closingOffset?, if_neg hq, if_pos ho] at h
    obtain ⟨m, hm, rfl⟩ := Option.map_eq_some_iff.mp h
    obtain ⟨ps, d, qs, hp, rfl, hn, hd⟩ := closingIn_iff (s := []).mp hm
    have hrest : rest = (textOf ps ++ [d]) ++ textOf qs := by
      rw [← textOf_pieces rest, hp, textOf_append, textOf_cons, List.append_assoc]
      rfl
    have hlen : (textOf ps).length + 1 = (textOf ps ++ [d]).length := by simp
    have hcut : pieces rest = (ps ++ [.code d]) ++ qs := by rw [hp]; simp
    have hqs : pieces (textOf qs) = qs := pieces_textOf hcut
    refine ⟨.code c :: (ps ++ [.code d]), ?_, ?_, ?_⟩
    · rw [pieces_code (regionTail?_of_isOpener ho rest), hp, hlen]
      conv => rhs; rw [hrest, List.drop_left, hqs]
      simp
    · rw [hlen, hrest, List.take_left]
      simp [Piece.text]
    · exact nest_enclosed hn hd []

/-- Is a unit named at the start of `text`, where `before` is in front? A word behind a point is the name of a column,
and a word before an opening parenthesis is the name of a function. -/
def namesUnit (before : Option Char) (text : Text) : Bool :=
  text.head?.any isWord && !before.any (fun c => isWord c || c = '.') &&
    ((text.dropWhile isWord).dropWhile isBlank).head? != some '(' &&
    (unitsWithoutModifier.any (Text.same (text.takeWhile isWord)) || (TimeUnit.ofWord? (text.takeWhile isWord)).isSome)

theorem namesUnit_cons {before c : Char} {rest : Text} (hc : isWord c = true) :
    namesUnit (some before) (c :: rest) = (!isWord before && before ≠ '.' &&
      ((rest.dropWhile isWord).dropWhile isBlank).head? != some '(' &&
      (unitsWithoutModifier.any (Text.same (c :: rest.takeWhile isWord)) ||
        (TimeUnit.ofWord? (c :: rest.takeWhile isWord)).isSome)) := by
  rw [namesUnit, List.takeWhile_cons_of_pos hc, List.dropWhile_cons_of_pos hc]
  simp [hc]

theorem head?_dropWhile_isWord (text : Text) : (text.dropWhile isWord).head?.any isWord = false := by
  have hnot := List.head?_dropWhile_not isWord text
  cases h : (text.dropWhile isWord).head? with
  | none => rfl
  | some c => rw [h] at hnot; exact hnot

/-- What the search for a unit passes over at once, behind the character `before` and in front of a text: a delimiter
with all that it encloses, a comment, a word or another character. -/
inductive UnitStep (before : Char) : List Piece → Text → Prop where
  | delimiter {c : Char} {rest : Text} {n : Nat} {ms : List Piece} : (isQuote c || isOpener c) = true →
      closingOffset? (c :: rest) = some n → pieces (c :: rest) = ms ++ pieces (rest.drop n) →
      (textOf ms).length = n + 1 → nest [] ms = some [] → UnitStep before ms (rest.drop n)
  | comment {t r : Text} : UnitStep before [.region .comment t] r
  | word {v r : Text} : (∀ c ∈ v, isWord c = true) → namesUnit (some before) (v ++ r) = false →
      UnitStep before (v.map .code) r
  | code {c : Char} {r : Text} : nest [] [.code c] = some [] → namesUnit (some before) (c :: r) = false →
      UnitStep before [.code c] r

/-- What the search for a unit passes over step by step. -/
inductive UnitSteps : Char → List Piece → Text → Prop where
  | nil {before : Char} {r : Text} : UnitSteps before [] r
  | cons {before before' : Char} {ms ys : List Piece} {r : Text} : UnitStep before ms (textOf ys ++ r) →
      (textOf ms).getLast? = some before' → UnitSteps before' ys r → UnitSteps before (ms ++ ys) r

theorem UnitStep.nest {before : Char} {ms : List Piece} {r : Text} (h : UnitStep before ms r) :
    SqlDialect.nest [] ms = some [] := by
  cases h with
  | delimiter _ _ _ _ hn => exact hn
  | comment => rfl
  | word hv _ =>
    have hword := nest_word hv [] []
    rwa [List.append_nil] at hword
  | code hn _ => exact hn

theorem UnitSteps.nest {before : Char} {ys : List Piece} {r : Text} (h : UnitSteps before ys r) :
    SqlDialect.nest [] ys = some [] := by
  induction h with
  | nil => rfl
  | cons hstep _ _ ih => rw [nest_append, hstep.nest, Option.bind_some, ih]

/-- From position `i` of a text on, where `rest` stands behind the character `before`, the search comes to the word for
the unit, from `start` to `stop`. -/
def UnitAt (before : Char) (i : Nat) (rest : Text) (unit : TimeUnit) (start stop : Nat) : Prop :=
  ∃ (ys : List Piece) (r : Text), pieces rest = ys ++ pieces r ∧ UnitSteps before ys r ∧
    start = i + (textOf ys).length ∧ stop = start + (r.takeWhile isWord).length ∧
    TimeUnit.ofWord? (r.takeWhile isWord) = some unit ∧ namesUnit ((textOf ys).getLast?.or (some before)) r = true

theorem UnitAt.step {before before' : Char} {i i' : Nat} {rest rest' : Text} {unit : TimeUnit} {start stop : Nat}
    {ms : List Piece} (h : UnitAt before' i' rest' unit start stop) (hstep : UnitStep before ms rest')
    (hp : pieces rest = ms ++ pieces rest') (hi : i' = i + (textOf ms).length)
    (hl : (textOf ms).getLast? = some before') : UnitAt before i rest unit start stop := by
  obtain ⟨ys, r, hys, hsteps, rfl, hstop, hunit, hnames⟩ := h
  have hrest : rest' = textOf ys ++ r := by rw [← textOf_pieces rest', hys, textOf_append, textOf_pieces]
  refine ⟨ms ++ ys, r, ?_, .cons (hrest ▸ hstep) hl hsteps, ?_, hstop, hunit, ?_⟩
  · rw [hp, hys, List.append_assoc]
  · rw [textOf_append, List.length_append, hi, Nat.add_assoc]
  · rw [textOf_append, List.getLast?_append, hl, Option.or_assoc, Option.some_or]
    exact hnames

theorem isWord_takeWhile {c : Char} (hc : isWord c = true) (rest : Text) :
    ∀ d ∈ c :: rest.takeWhile isWord, isWord d = true :=
  List.forall_mem_cons.mpr ⟨hc, List.all_eq_true.mp List.all_takeWhile⟩

/-- The word that a text starts with is passed over. -/
theorem pieces_takeWhile_isWord {c : Char} (hc : isWord c = true) (rest : Text) :
    pieces (c :: rest) = (c :: rest.takeWhile isWord).map .code ++ pieces (rest.dropWhile isWord) := by
  have hread := reads_word (isWord_takeWhile hc rest) (rest.dropWhile isWord)
  rwa [Reads, List.cons_append, List.takeWhile_append_dropWhile] at hread

/-- **The search for a unit**, step by step. -/
theorem findUnit_steps {source : Text} {before : Char} {i : Nat} {rest : Text} {unit : TimeUnit} {start stop : Nat}
    (h : findUnit source before i rest = .ok (unit, start, stop)) : UnitAt before i rest unit start stop := by
  fun_induction findUnit source before i rest with
  | case1 | case2 | case5 | case7 => cases h
  | case3 before i c rest hc n hn ih =>
    obtain ⟨qs, hp, ht, hnest⟩ := pieces_closing hc hn
    have hlt := closingOffset?_lt hn
    have hlen : (textOf qs).length = n + 1 := by
      simp only [ht, List.length_cons, List.length_take] at hlt ⊢
      omega
    refine (ih h).step (.delimiter hc hn hp hlen hnest) hp ?_ (by rw [ht, List.getLast?_eq_some_getLast (by simp)])
    rw [hlen, Nat.add_assoc]
  | case4 before i c rest _ n hn ih =>
    have hr := regionTail?_of_commentTail? hn
    have hle := lt_of_regionTail? hr
    refine (ih h).step .comment (pieces_region hr) ?_ ?_
    · simp only [textOf_cons, textOf_nil, List.append_nil, Piece.text, List.length_cons, List.length_take]
      omega
    · simp only [textOf_cons, textOf_nil, List.append_nil, Piece.text,
        List.getLast?_eq_some_getLast (List.cons_ne_nil c _)]
  | case6 before i c rest _ _ _ hword word after wordStop hcall ih
  | case9 before i c rest _ _ _ hword word after wordStop _ hno hnone ih =>
    simp only [Bool.and_eq_true] at hword
    have hnames : namesUnit (some before) (word ++ after) = false := by
      rw [List.cons_append, List.takeWhile_append_dropWhile, namesUnit_cons hword.1.1]
      simp_all [word, after]
    refine (ih h).step (.word (isWord_takeWhile hword.1.1 rest) hnames) (pieces_takeWhile_isWord hword.1.1 rest) ?_ ?_
    · rw [textOf_map_code]
    · rw [textOf_map_code, List.getLast?_eq_some_getLast (by simp)]
  | case8 before i c rest _ _ _ hword word after wordStop hcall _ unit' hu =>
    simp only [Except.ok.injEq, Prod.mk.injEq] at h
    obtain ⟨rfl, rfl, rfl⟩ := h
    simp only [Bool.and_eq_true] at hword
    have htake : (c :: rest).takeWhile isWord = word := List.takeWhile_cons_of_pos hword.1.1
    refine ⟨[], c :: rest, rfl, .nil, rfl, by rw [htake], by rw [htake, hu], ?_⟩
    show namesUnit (some before) (c :: rest) = true
    rw [namesUnit_cons hword.1.1]
    simp_all [word, after]
  | case10 before i c rest hc hn hend hword ih =>
    simp only [Bool.or_eq_true, not_or, Bool.not_eq_true] at hc
    have hr := regionTail?_of_code hc.1 hn
    have hcl : isCloser c = false := by
      simp only [endsAmount, Bool.or_eq_true, not_or, Bool.not_eq_true] at hend
      exact hend.1.1
    have hnames : namesUnit (some before) (c :: rest) = false := by
      rw [Bool.eq_false_iff]
      intro hnames
      simp only [namesUnit, List.head?_cons, Option.any_some, Bool.and_eq_true, Bool.not_eq_true', Bool.or_eq_false_iff,
        decide_eq_false_iff_not] at hnames
      simp [hnames.1.1] at hword
    exact (ih h).step (.code (by rw [nest_code hc.1 hc.2 hcl, nest_nil]) hnames) (pieces_code hr) rfl rfl

/-- From position `i` of a text on, where `rest` stands behind the character `before`, there are whole pieces with
matching brackets, and behind them from `start` to `stop` the word for the unit. -/
def UnitFrom (before : Char) (i : Nat) (rest : Text) (unit : TimeUnit) (start stop : Nat) : Prop :=
  ∃ (ys : List Piece) (u z : Text), pieces rest = ys ++ (u.map .code ++ pieces z) ∧ nest [] ys = some [] ∧
    start = i + (textOf ys).length ∧ stop = start + u.length ∧ Text.lower u = Text.lower unit.name ∧
    isWord ((textOf ys).getLast?.getD before) = false ∧ z.head?.any isWord = false

/-- **The amount and the unit.** The amount is made of whole pieces with matching brackets, and the unit is a word
behind it. -/
theorem findUnit_pieces {source : Text} {before : Char} {i : Nat} {rest : Text} {unit : TimeUnit} {start stop : Nat}
    (h : findUnit source before i rest = .ok (unit, start, stop)) : UnitFrom before i rest unit start stop := by
  obtain ⟨ys, r, hys, hsteps, hstart, hstop, hunit, hnames⟩ := findUnit_steps h
  have hsame := List.find?_some hunit
  simp only [Text.same, beq_iff_eq] at hsame
  have hword : ∀ c ∈ r.takeWhile isWord, isWord c = true := List.all_eq_true.mp List.all_takeWhile
  have hread := reads_word hword (r.dropWhile isWord)
  rw [Reads, List.takeWhile_append_dropWhile] at hread
  refine ⟨ys, r.takeWhile isWord, r.dropWhile isWord, by rw [hys, hread], hsteps.nest, hstart, hstop, hsame, ?_,
    head?_dropWhile_isWord r⟩
  simp only [namesUnit, Bool.and_eq_true, Bool.not_eq_true'] at hnames
  have hbefore := hnames.1.1.2
  cases hl : (textOf ys).getLast? with
  | none | some d =>
    rw [hl] at hbefore
    simp only [Option.none_or, Option.some_or, Option.any_some, Bool.or_eq_false_iff] at hbefore
    exact hbefore.1

/-! ## The terms -/

theorem isWord_keyword : ∀ c ∈ keyword, isWord c = true := by rw [keyword]; decide

theorem keyword_ne_nil : keyword ≠ [] := by rw [keyword]; decide

/-- The keyword that a text starts with, and what stands behind it. -/
theorem startsKeyword_keyword {b : Option Char} {text : Text} (h : startsKeyword keyword b text = true) :
    ∃ v x, text = v ++ x ∧ Text.lower v = Text.lower keyword ∧ v.length = keyword.length ∧
      x.head?.any isWord = false := by
  simp only [startsKeyword, Bool.and_eq_true, Bool.not_eq_true'] at h
  obtain ⟨v, x, rfl, hv⟩ := starts_iff.mp h.1.1
  have hlen := length_eq_of_lower_eq hv
  have hlast : keyword.getLast?.any isWord = true := by rw [keyword]; decide
  have hx := h.2
  rw [hlast, Bool.true_and, ← hlen, List.drop_left] at hx
  exact ⟨v, x, rfl, hv, hlen, hx⟩

/-- A term: the keyword, an amount with spaces and comments around it, and the unit. -/
def TermPieces (t : Term) (qs : List Piece) : Prop :=
  ∃ (v u : Text) (ys : List Piece), qs = v.map .code ++ (ys ++ u.map .code) ∧ Text.lower v = Text.lower keyword ∧
    Text.lower u = Text.lower t.unit.name ∧ Text.trim (textOf ys) = t.amount ∧ t.amount ≠ [] ∧
    nest [] ys = some [] ∧ (textOf ys).head?.any isWord = false ∧ (textOf ys).getLast?.any isWord = false

theorem readTerm_pieces {sign : Sign} {source : Text} {b : Option Char} {t : Term} {n : Nat}
    (hk : startsKeyword keyword b source = true) (h : readTerm sign source = .ok (t, n)) :
    ∃ qs : List Piece, pieces source = qs ++ pieces (source.drop n) ∧ (textOf qs).length = n ∧ TermPieces t qs ∧
      (source.drop n).head?.any isWord = false := by
  obtain ⟨v, x, rfl, hv, hlen, hx⟩ := startsKeyword_keyword hk
  rw [readTerm, ← hlen, List.drop_left] at h
  split at h
  · cases h
  · next unit start stop hu =>
    obtain ⟨ys, u, z, hys, hnest, rfl, rfl, hunit, hlast, hz⟩ := findUnit_pieces hu
    have hxt : x = textOf ys ++ (u ++ z) := by
      rw [← textOf_pieces x, hys, textOf_append, textOf_append, textOf_map_code, textOf_pieces]
    have hslice : Text.slice (v ++ x) v.length (v.length + (textOf ys).length) = textOf ys := by
      rw [Text.slice, hxt, List.take_length_add_append, List.take_left, List.drop_left]
    rw [hslice] at h
    simp only at h
    split at h
    · cases h
    · next hne =>
      split at h
      · cases h
      · simp only [Except.ok.injEq, Prod.mk.injEq] at h
        obtain ⟨rfl, rfl⟩ := h
        have hdrop : (v ++ x).drop (v.length + (textOf ys).length + u.length) = z := by
          rw [hxt, Nat.add_assoc, ← List.drop_drop, List.drop_left, ← List.drop_drop, List.drop_left, List.drop_left]
        have hy : textOf ys ≠ [] := fun e => by
          rw [e] at hne
          exact hne rfl
        rw [hdrop]
        refine ⟨v.map .code ++ (ys ++ u.map .code), ?_, ?_, ⟨v, u, ys, rfl, hv, hunit, rfl, ?_, hnest, ?_, ?_⟩, hz⟩
        · have := reads_word (isWord_of_lower_eq hv isWord_keyword) x
          rw [this, hys]
          simp
        · simp [textOf_map_code, Nat.add_assoc]
        · simpa using hne
        · cases hyt : textOf ys with
          | nil => exact absurd hyt hy
          | cons c y => rw [hxt, hyt] at hx; exact hx
        · rw [List.getLast?_eq_some_getLast hy] at hlast ⊢
          exact hlast

/-- Terms with the dropped pieces in front of each. -/
inductive ChainPieces : List Term → List Piece → Prop where
  | nil : ChainPieces [] []
  | cons {t : Term} {ts : List Term} {ds qs rs : List Piece} : ds ≠ [] → (∀ p ∈ ds, isDropped p = true) →
      (textOf ds).getLast?.any isWord = false → TermPieces t qs → ChainPieces ts rs →
      ChainPieces (t :: ts) (ds ++ (qs ++ rs))

theorem isDropped_of_sign {c : Char} {sign : Sign} (h : Sign.ofChar? c = some sign) : isDropped (.code c) = true := by
  simp [isDropped, h]

theorem eq_of_ofChar? {c : Char} {sign : Sign} (h : Sign.ofChar? c = some sign) : c = '+' ∨ c = '-' := by
  unfold Sign.ofChar? at h
  split at h <;> simp_all

theorem char_of_ofChar? {c : Char} {sign : Sign} (h : Sign.ofChar? c = some sign) : c = sign.char := by
  unfold Sign.ofChar? at h
  split at h <;> cases h <;> rfl

theorem ofChar?_char (sign : Sign) : Sign.ofChar? sign.char = some sign := by cases sign <;> rfl

theorem sign_of_readTerm {sign : Sign} {source : Text} {t : Term} {n : Nat} (h : readTerm sign source = .ok (t, n)) :
    t.sign = sign := by
  obtain ⟨-, -, -, -, -, hsign⟩ := readTerm_ok h
  exact hsign

/-- The further terms of an expression: each has its sign in front, with spaces and comments around it. -/
inductive FurtherTerms : List Term → List Piece → Prop where
  | nil : FurtherTerms [] []
  | cons {t : Term} {ts : List Term} {ds es qs rs : List Piece} : (∀ p ∈ ds, isTrivia p = true) →
      (∀ p ∈ es, isTrivia p = true) → (t.sign.char :: textOf es).getLast?.any isWord = false → TermPieces t qs →
      FurtherTerms ts rs → FurtherTerms (t :: ts) (ds ++ .code t.sign.char :: (es ++ (qs ++ rs)))

/-- A sign with spaces and comments around it is dropped. -/
theorem isDropped_of_signed {sign : Sign} {ds es : List Piece} (hds : ∀ p ∈ ds, isTrivia p = true)
    (hes : ∀ p ∈ es, isTrivia p = true) : ∀ p ∈ ds ++ .code sign.char :: es, isDropped p = true := by
  intro p hp
  rcases List.mem_append.mp hp with hp | hp
  · exact isDropped_of_isTrivia (hds p hp)
  · rcases List.mem_cons.mp hp with rfl | hp
    · exact isDropped_of_sign (ofChar?_char sign)
    · exact isDropped_of_isTrivia (hes p hp)

theorem getLast?_signed (sign : Sign) (ds es : List Piece) :
    (textOf (ds ++ .code sign.char :: es)).getLast? = (sign.char :: textOf es).getLast? := by
  have hlast : (sign.char :: textOf es).getLast? = some ((textOf es).getLast?.getD sign.char) := by
    rw [List.getLast?_cons]
  rw [textOf_append, textOf_cons, List.getLast?_append, Piece.text, List.singleton_append, hlast, Option.some_or]

theorem FurtherTerms.chain {ts : List Term} {qs : List Piece} (h : FurtherTerms ts qs) : ChainPieces ts qs := by
  induction h with
  | nil => exact .nil
  | @cons t ts ds es qs rs hds hes hlast ht _ ih =>
    have hcons := ChainPieces.cons (by simp) (isDropped_of_signed hds hes) (by rw [getLast?_signed]; exact hlast) ht ih
    rwa [List.append_assoc] at hcons

/-- The sign of a further term, with the blanks and comments around it. -/
theorem nextSign?_pieces {text : Text} {sign : Sign} {n : Nat} (h : nextSign? text = some (sign, n)) :
    ∃ ds es : List Piece, pieces text = ds ++ .code sign.char :: (es ++ pieces (text.drop n)) ∧
      (textOf ds).length = triviaLength text ∧ (textOf ds).length + (1 + (textOf es).length) = n ∧
      (∀ p ∈ ds, isTrivia p = true) ∧ (∀ p ∈ es, isTrivia p = true) ∧
      startsKeyword keyword (sign.char :: textOf es).getLast? (text.drop n) = true := by
  obtain ⟨ds, hp, hl, hds, -, hnext⟩ := pieces_trivia text
  unfold nextSign? at h
  simp only at h
  split at h
  · cases h
  · next c rest hd =>
    split at h
    · cases h
    · next sign' hs =>
      split at h
      · next hk =>
        simp only [Option.some.injEq, Prod.mk.injEq] at h
        obtain ⟨rfl, rfl⟩ := h
        obtain rfl := char_of_ofChar? hs
        obtain ⟨es, hq, hm, hes, -⟩ := pieces_trivia rest
        have hcode := regionTail?_of_code (by cases sign' <;> rfl) (hnext _ rest hd).2
        have hdrop : text.drop (triviaLength text + 1 + triviaLength rest) = rest.drop (triviaLength rest) := by
          rw [Nat.add_assoc, ← List.drop_drop, hd, Nat.add_comm 1, List.drop_succ_cons]
        rw [take_of_pieces hq hm] at hk
        rw [hdrop]
        refine ⟨ds, es, ?_, hl, ?_, hds, hes, hk⟩
        · rw [hp, hd, pieces_code hcode, hq]
        · rw [hl, hm, Nat.add_assoc]
      · cases h

/-- The further terms behind a term. -/
theorem readChain_pieces {text : Text} {ts : List Term} {n : Nat} (h : readChain text = .ok (ts, n))
    (hw : text.head?.any isWord = false) :
    ∃ rs : List Piece, pieces text = rs ++ pieces (text.drop n) ∧ (textOf rs).length = n ∧ FurtherTerms ts rs ∧
      (text.drop n).head?.any isWord = false := by
  fun_induction readChain text generalizing ts n with
  | case1 text hs =>
    cases h
    exact ⟨[], rfl, rfl, .nil, hw⟩
  | case2 | case3 => cases h
  | case4 text sign skipped hs t m ht ts' k hc ih =>
    simp only [Except.ok.injEq, Prod.mk.injEq] at h
    obtain ⟨rfl, rfl⟩ := h
    obtain ⟨ds, es, hp, -, hl, hds, hes, hk⟩ := nextSign?_pieces hs
    obtain ⟨qs, hq, hm, hterm, hwq⟩ := readTerm_pieces hk ht
    rw [List.drop_drop] at hq hwq
    obtain ⟨rs, hr, hkl, hchain, hwr⟩ := ih hc hwq
    rw [List.drop_drop] at hr hwr
    obtain rfl := sign_of_readTerm ht
    refine ⟨ds ++ .code t.sign.char :: (es ++ (qs ++ rs)), ?_, ?_, .cons hds hes ?_ hterm hchain, hwr⟩
    · rw [hp, hq, hr]
      simp
    · simp only [textOf_append, textOf_cons, Piece.text, List.length_append, List.length_singleton, hm, hkl]
      omega
    · exact before_of_startsKeyword keyword_ne_nil isWord_keyword hk

/-- **The terms of an expression.** The first one stands where they are read, the others follow. -/
theorem readTerms_split {sign : Sign} {source : Text} {ts : List Term} {n : Nat} {b : Option Char}
    (hk : startsKeyword keyword b source = true) (h : readTerms sign source = .ok (ts, n)) :
    ∃ (t : Term) (ts' : List Term) (qs rs : List Piece), ts = t :: ts' ∧ t.sign = sign ∧
      pieces source = (qs ++ rs) ++ pieces (source.drop n) ∧ (textOf (qs ++ rs)).length = n ∧ TermPieces t qs ∧
      FurtherTerms ts' rs ∧ (source.drop n).head?.any isWord = false := by
  obtain ⟨t, m, ts', k, ht, hc, rfl, rfl⟩ := readTerms_ok h
  obtain ⟨qs, hq, hm, hterm, hwq⟩ := readTerm_pieces hk ht
  obtain ⟨rs, hr, hkl, hchain, hwr⟩ := readChain_pieces hc hwq
  rw [List.drop_drop] at hr hwr
  refine ⟨t, ts', qs, rs, rfl, sign_of_readTerm ht, ?_, ?_, hterm, hchain, hwr⟩
  · rw [hq, hr, List.append_assoc]
  · rw [textOf_append, List.length_append, hm, hkl]

/-- The terms of an expression from the first keyword on. -/
def TermsPieces (ts : List Term) (qs : List Piece) : Prop :=
  ∃ (t : Term) (ts' : List Term) (as bs : List Piece), ts = t :: ts' ∧ qs = as ++ bs ∧ TermPieces t as ∧
    FurtherTerms ts' bs

/-- With the dropped pieces in front of the keyword the terms make up a chain. -/
theorem TermsPieces.chain {ts : List Term} {ds qs : List Piece} (h : TermsPieces ts qs) (hne : ds ≠ [])
    (hds : ∀ p ∈ ds, isDropped p = true) (hlast : (textOf ds).getLast?.any isWord = false) :
    ChainPieces ts (ds ++ qs) := by
  obtain ⟨t, ts', as, bs, rfl, rfl, hterm, hfurther⟩ := h
  exact .cons hne hds hlast hterm hfurther.chain

theorem TermsPieces.ne_nil {ts : List Term} {qs : List Piece} (h : TermsPieces ts qs) : ts ≠ [] := by
  obtain ⟨t, ts', as, bs, rfl, -⟩ := h
  simp

theorem readTerms_pieces {sign : Sign} {source : Text} {ts : List Term} {n : Nat} {b : Option Char}
    (hk : startsKeyword keyword b source = true) (h : readTerms sign source = .ok (ts, n)) :
    ∃ qs : List Piece, pieces source = qs ++ pieces (source.drop n) ∧ (textOf qs).length = n ∧ TermsPieces ts qs ∧
      (source.drop n).head?.any isWord = false := by
  obtain ⟨t, ts', as, bs, hts, -, hp, hl, hterm, hfurther, hw⟩ := readTerms_split hk h
  exact ⟨as ++ bs, hp, hl, ⟨t, ts', as, bs, hts, rfl, hterm, hfurther⟩, hw⟩

end SqlDialect.Interval
