import SqlDialect.Proofs.Interval.Balanced

/-!
# Terms in front of a comma

The terms of an interval expression are read from the keyword on. In a well-formed text that reading never goes beyond
the end of the text or a comma at the top level: every delimiter is closed before, and a comma ends an amount. So the
same terms are read whatever stands behind the comma.

* `Tail`: the rest of a well-formed text in front of something else.
* `triviaLength_append`, `findUnit_append`, `nextSign?_append`: what one search finds is found in front of a comma too.
* `readTerms_append`: the same terms are read.
-/

namespace SqlDialect.Interval

/-! ## The rest of a well-formed text -/

/-- Nothing or a comma stands behind. -/
def EndsItem (r : Text) : Prop := r = [] ∨ r.head? = some ','

theorem EndsItem.head {p : Char → Bool} {r : Text} (h : EndsItem r) (hp : p ',' = false) : r.head?.any p = false := by
  rcases h with rfl | h
  · rfl
  · rw [h, Option.any_some, hp]

/-- The text `t` is read alone as in front of `r`. No comment stands in it, and every bracket that is opened in it is
closed in it. -/
structure Tail (t r : Text) : Prop where
  reads : Reads t r (pieces t)
  comment : ∀ u, .region .comment u ∉ pieces t
  nest : ∃ s, nest s (pieces t) = some []

theorem eq_error_of_toOption {α : Type} {x : Except StageError α} (h : x.toOption = none) : ∃ e, x = .error e := by
  cases x with
  | error e => exact ⟨e, rfl⟩
  | ok a => cases h

section Tail

variable {t u r : Text} {ds : List Piece}

/-- From a later place between two pieces on. -/
theorem Tail.drop (h : Tail t r) (hp : pieces t = ds ++ pieces u) : Tail u r := by
  obtain ⟨s, hs⟩ := h.nest
  have hread := h.reads
  rw [hp] at hs hread
  refine ⟨?_, fun v hv => h.comment v (by rw [hp]; exact List.mem_append_right _ hv), ?_⟩
  · have := hread.drop
    rwa [textOf_pieces] at this
  · obtain ⟨s', -, hs'⟩ := nest_prefix hs
    exact ⟨s', hs'⟩

theorem Tail.pieces_append (h : Tail t r) : pieces (t ++ r) = pieces t ++ pieces r := h.reads

/-- No comment starts. -/
theorem commentTail?_of_code {c : Char} {rest : Text} {p : Piece} {ps : List Piece} (h : pieces (c :: rest) = p :: ps)
    (hp : p.isComment = false) : commentTail? c rest = none := by
  cases hc : commentTail? c rest with
  | none => rfl
  | some n =>
    rw [pieces_region (regionTail?_of_commentTail? hc), List.cons.injEq] at h
    rw [← h.1] at hp
    cases hp

theorem Tail.commentTail? {c : Char} {rest : Text} (h : Tail (c :: rest) r) :
    commentTail? c rest = none ∧ commentTail? c (rest ++ r) = none := by
  obtain ⟨p, n, hp, -⟩ := pieces_cons c rest
  have hcomment : p.isComment = false := no_comment_iff.mp h.comment p (by rw [hp]; exact List.mem_cons_self)
  have happ := h.pieces_append
  rw [hp, List.cons_append, List.cons_append] at happ
  exact ⟨commentTail?_of_code hp hcomment, commentTail?_of_code happ hcomment⟩

/-- A delimiter is closed, at the same place whatever stands behind the text. -/
theorem Tail.closingOffset? {c : Char} {rest : Text} (h : Tail (c :: rest) r)
    (hc : (isQuote c || isOpener c) = true) : ∃ n, closingOffset? (c :: rest) = some n ∧
      closingOffset? (c :: (rest ++ r)) = some n ∧ n ≤ rest.length ∧ Tail (rest.drop n) r := by
  obtain ⟨s, hs⟩ := h.nest
  have hne : pieces (c :: rest) ≠ [] := by
    obtain ⟨p, n, hp, -⟩ := pieces_cons c rest
    rw [hp]
    simp
  obtain ⟨n, hn⟩ := closing_of_balanced hne hs (Nat.zero_le _)
  have hc' : isQuote c = true ∨ isOpener c = true := by simpa using hc
  obtain ⟨halone, -⟩ := hn c rest [] (by simp) hc'
  obtain ⟨happ, -⟩ := hn c (rest ++ r) r h.pieces_append hc'
  have hlt := closingOffset?_lt halone
  obtain ⟨qs, hqs, -⟩ := pieces_closing hc halone
  exact ⟨n, halone, happ, by simpa [Nat.lt_succ_iff] using hlt, h.drop hqs⟩

end Tail

/-! ## Blanks and the unit -/

section Append

variable {t r : Text}

theorem triviaLength_end (hr : EndsItem r) : triviaLength r = 0 := by
  rcases hr with rfl | hr
  · rw [triviaLength]
  · obtain ⟨r, rfl⟩ := List.head?_eq_some_iff.mp hr
    rw [triviaLength, if_neg (by decide)]
    rfl

theorem triviaLength_append (h : Tail t r) (hr : EndsItem r) : triviaLength (t ++ r) = triviaLength t := by
  fun_induction triviaLength t with
  | case1 => exact triviaLength_end hr
  | case2 c rest hc ih =>
    have hp : pieces (c :: rest) = [.code c] ++ pieces rest := pieces_code (regionTail?_of_isBlank hc rest)
    rw [List.cons_append, triviaLength, if_pos hc, ih (h.drop hp)]
  | case3 c rest hc n hn =>
    rw [h.commentTail?.1] at hn
    cases hn
  | case4 c rest hc hn => rw [List.cons_append, triviaLength, if_neg hc, h.commentTail?.2]

theorem head?_append_end (hr : EndsItem r) (x : Text) : (x ++ r).head? = some '(' ↔ x.head? = some '(' := by
  cases x with
  | cons c x => exact Iff.rfl
  | nil =>
    rcases hr with rfl | hr
    · exact Iff.rfl
    · rw [List.nil_append, hr]
      simp

/-- The search for a unit at a word that is followed by a comma or nothing after the text. -/
theorem findUnit_word {c : Char} {rest : Text} (h : Tail (c :: rest) r) (hr : EndsItem r) {before : Char}
    (hc : ¬ (isQuote c || isOpener c) = true) (hend : ¬ endsAmount c = true)
    (hw : (isWord c && !isWord before && decide (before ≠ '.')) = true) (source : Text) (i : Nat) :
    findUnit source before i (c :: rest ++ r) =
      if ((rest.dropWhile isWord).dropWhile isBlank).head? = some '(' then
        findUnit source ((c :: rest.takeWhile isWord).getLast (by simp)) (i + (c :: rest.takeWhile isWord).length)
          (rest.dropWhile isWord ++ r)
      else if unitsWithoutModifier.any (Text.same (c :: rest.takeWhile isWord)) then
        .error ⟨.unitWithoutModifier (c :: rest.takeWhile isWord), source.take (i + (c :: rest.takeWhile isWord).length)⟩
      else
        (TimeUnit.ofWord? (c :: rest.takeWhile isWord)).elim
          (findUnit source ((c :: rest.takeWhile isWord).getLast (by simp)) (i + (c :: rest.takeWhile isWord).length)
            (rest.dropWhile isWord ++ r))
          fun unit => .ok (unit, i, i + (c :: rest.takeWhile isWord).length) := by
  obtain ⟨htake, hdrop⟩ := takeWhile_append_end (hr.head (p := isWord) rfl) rest
  obtain ⟨-, hblank⟩ := takeWhile_append_end (hr.head (p := isBlank) rfl) (rest.dropWhile isWord)
  rw [List.cons_append, findUnit, if_neg hc, h.commentTail?.2]
  simp only [hend, hw, htake, hdrop, hblank, head?_append_end hr, if_true, Bool.false_eq_true, if_false]
  cases TimeUnit.ofWord? (c :: rest.takeWhile isWord) <;> rfl

/-- What the search for a unit finds is found in front of a comma too. -/
theorem findUnit_append (h : Tail t r) (hr : EndsItem r) (source source' : Text) (before : Char) (i : Nat) :
    (findUnit source' before i (t ++ r)).toOption = (findUnit source before i t).toOption := by
  fun_induction findUnit source before i t with
  | case1 before i =>
    rw [List.nil_append]
    rcases hr with rfl | hr
    · rw [findUnit]
      rfl
    · obtain ⟨r, rfl⟩ := List.head?_eq_some_iff.mp hr
      rw [findUnit, if_neg (by decide)]
      rfl
  | case2 before i c rest hc hn =>
    obtain ⟨n, hsome, -⟩ := h.closingOffset? hc
    rw [hsome] at hn
    cases hn
  | case3 before i c rest hc n hn ih =>
    obtain ⟨m, hsome, happ, hle, htail⟩ := h.closingOffset? hc
    obtain rfl : m = n := Option.some.inj (hsome.symm.trans hn)
    rw [← ih htail, List.cons_append, findUnit, if_pos hc, happ]
    simp only [List.take_append_of_le_length hle, List.drop_append_of_le_length hle]
  | case4 before i c rest hc n hn =>
    rw [h.commentTail?.1] at hn
    cases hn
  | case5 before i c rest hc hn hend =>
    rw [List.cons_append, findUnit, if_neg hc, h.commentTail?.2]
    simp only [hend, if_true]
    rfl
  | case6 before i c rest hc hn hend hw word after stop hcall ih =>
    have hp := pieces_takeWhile_isWord (by simp only [Bool.and_eq_true] at hw; exact hw.1.1) rest
    rw [findUnit_word h hr hc hend hw, if_pos hcall]
    exact ih (h.drop hp)
  | case7 before i c rest hc hn hend hw word after stop hcall hno =>
    rw [findUnit_word h hr hc hend hw, if_neg hcall, if_pos hno]
    rfl
  | case8 before i c rest hc hn hend hw word after stop hcall hno unit hu =>
    rw [findUnit_word h hr hc hend hw, if_neg hcall, if_neg hno]
    simp only [word] at hu
    simp only [hu]
    rfl
  | case9 before i c rest hc hn hend hw word after stop hcall hno hu ih =>
    have hp := pieces_takeWhile_isWord (by simp only [Bool.and_eq_true] at hw; exact hw.1.1) rest
    rw [findUnit_word h hr hc hend hw, if_neg hcall, if_neg hno]
    simp only [word] at hu
    simp only [hu]
    exact ih (h.drop hp)
  | case10 before i c rest hc hn hend hw ih =>
    simp only [Bool.or_eq_true, not_or, Bool.not_eq_true] at hc
    have hp : pieces (c :: rest) = [.code c] ++ pieces rest := pieces_code (regionTail?_of_code hc.1 hn)
    rw [← ih (h.drop hp), List.cons_append, findUnit, if_neg (by simp [hc]), h.commentTail?.2]
    simp only [hend, hw]
    rfl

/-- The unit that is found stops within the text. -/
theorem findUnit_le {source : Text} {before : Char} {i : Nat} {unit : TimeUnit} {start stop : Nat}
    (h : findUnit source before i t = .ok (unit, start, stop)) : stop ≤ i + t.length := by
  obtain ⟨ys, u, z, hys, -, rfl, rfl, -⟩ := findUnit_pieces h
  have hlen := congrArg (List.length ∘ textOf) hys
  simp only [Function.comp_apply, textOf_pieces, textOf_append, textOf_map_code, List.length_append] at hlen
  omega

/-! ## Terms -/

/-- A keyword does not start at the end of an item. -/
theorem startsKeyword_end (hr : EndsItem r) (b : Option Char) : startsKeyword keyword b r = false := by
  rw [Bool.eq_false_iff]
  exact fun h => not_foreign_of_startsKeyword h (foreign_of_isWord (hr.head rfl))

theorem startsKeyword_append_end (hr : EndsItem r) (b : Option Char) (t : Text) :
    startsKeyword keyword b (t ++ r) = startsKeyword keyword b t := by
  cases t with
  | nil => rw [List.nil_append, startsKeyword_end hr, startsKeyword_end (Or.inl rfl)]
  | cons c t => exact startsKeyword_append isWord_keyword (by simp) (wordBreak_of_head (hr.head rfl) _)

/-- What stands behind the keyword that a text starts with. -/
theorem Tail.behind_keyword {b : Option Char} (h : Tail t r) (hk : startsKeyword keyword b t = true) :
    keyword.length ≤ t.length ∧ Tail (t.drop keyword.length) r := by
  obtain ⟨v, x, rfl, hv, hlen, -⟩ := startsKeyword_keyword hk
  have hp : pieces (v ++ x) = v.map .code ++ pieces x := reads_word (isWord_of_lower_eq hv isWord_keyword) x
  rw [← hlen, List.drop_left]
  exact ⟨by simp, h.drop hp⟩

theorem readTerm_append {b : Option Char} (h : Tail t r) (hr : EndsItem r) (hk : startsKeyword keyword b t = true)
    (sign : Sign) : (readTerm sign (t ++ r)).toOption = (readTerm sign t).toOption := by
  obtain ⟨hle, htail⟩ := h.behind_keyword hk
  have hunit := findUnit_append htail hr t (t ++ r) 'l' keyword.length
  rw [readTerm, readTerm, List.drop_append_of_le_length hle]
  cases hu : findUnit t 'l' keyword.length (t.drop keyword.length) with
  | error e =>
    rw [hu] at hunit
    obtain ⟨e', he'⟩ := eq_error_of_toOption hunit
    rw [he']
    rfl
  | ok x =>
    obtain ⟨unit, start, stop⟩ := x
    rw [hu] at hunit
    have hu' : findUnit (t ++ r) 'l' keyword.length (t.drop keyword.length ++ r) = .ok (unit, start, stop) :=
      eq_ok_of_toOption hunit
    have hlt := findUnit_lt hu
    have hstop := findUnit_le hu
    rw [List.length_drop] at hstop
    have hslice : Text.slice (t ++ r) keyword.length start = Text.slice t keyword.length start := by
      rw [Text.slice, Text.slice, List.take_append_of_le_length (by omega)]
    rw [hu']
    simp only [hslice]
    split
    · rfl
    · split
      · rfl
      · rfl

theorem triviaLength_le (t : Text) : triviaLength t ≤ t.length := by
  obtain ⟨ds, hp, hl, -⟩ := pieces_trivia t
  have hlen := congrArg (List.length ∘ textOf) hp
  simp only [Function.comp_apply, textOf_pieces, textOf_append, List.length_append, hl] at hlen
  omega

/-- Behind a sign. -/
theorem Tail.behind_sign {c : Char} {rest : Text} {sign : Sign} (h : Tail (c :: rest) r)
    (hs : Sign.ofChar? c = some sign) : Tail rest r := by
  have hq : isQuote c = false := by
    rcases eq_of_ofChar? hs with rfl | rfl <;> rfl
  exact h.drop (pieces_code (regionTail?_of_code hq h.commentTail?.1) : _ = [.code c] ++ _)

theorem nextSign?_append (h : Tail t r) (hr : EndsItem r) : nextSign? (t ++ r) = nextSign? t := by
  obtain ⟨ds, hp, -⟩ := pieces_trivia t
  have htail := h.drop hp
  rw [nextSign?, nextSign?, triviaLength_append h hr, List.drop_append_of_le_length (triviaLength_le t)]
  cases hd : t.drop (triviaLength t) with
  | nil =>
    rw [List.nil_append]
    rcases hr with rfl | hr
    · rfl
    · obtain ⟨r, rfl⟩ := List.head?_eq_some_iff.mp hr
      rfl
  | cons c rest =>
    rw [hd] at htail
    rw [List.cons_append]
    cases hs : Sign.ofChar? c with
    | none => simp only [hs]
    | some sign =>
      simp only [hs, triviaLength_append (htail.behind_sign hs) hr,
        List.take_append_of_le_length (triviaLength_le rest), List.drop_append_of_le_length (triviaLength_le rest),
        startsKeyword_append_end hr]

theorem readChain_of_none {t : Text} (h : nextSign? t = none) : readChain t = .ok ([], 0) := by
  rw [readChain]
  split
  · rfl
  · next h' =>
    rw [h] at h'
    cases h'

theorem readChain_of_some {t : Text} {sign : Sign} {skipped : Nat} (h : nextSign? t = some (sign, skipped)) :
    readChain t =
      match readTerm sign (t.drop skipped) with
      | .error e => .error e
      | .ok (term, n) =>
        match readChain (t.drop (skipped + n)) with
        | .error e => .error e
        | .ok (terms, m) => .ok (term :: terms, skipped + n + m) := by
  rw [readChain]
  split
  · next h' =>
    rw [h] at h'
    cases h'
  · next sign' skipped' h' =>
    rw [h, Option.some.injEq, Prod.mk.injEq] at h'
    obtain ⟨rfl, rfl⟩ := h'
    rfl

/-- A term that is read is made of whole pieces of the text. -/
theorem Tail.behind_term {b : Option Char} {sign : Sign} {term : Term} {n : Nat} (h : Tail t r)
    (hk : startsKeyword keyword b t = true) (ht : readTerm sign t = .ok (term, n)) :
    n ≤ t.length ∧ Tail (t.drop n) r := by
  obtain ⟨qs, hq, hl, -⟩ := readTerm_pieces hk ht
  have hlen := congrArg (List.length ∘ textOf) hq
  simp only [Function.comp_apply, textOf_pieces, textOf_append, List.length_append, hl] at hlen
  exact ⟨by omega, h.drop hq⟩

theorem readChain_append (h : Tail t r) (hr : EndsItem r) : (readChain (t ++ r)).toOption = (readChain t).toOption := by
  induction hlen : t.length using Nat.strongRecOn generalizing t with
  | ind m ih =>
    have hnext := nextSign?_append h hr
    cases hs : nextSign? t with
    | none => rw [readChain_of_none hs, readChain_of_none (hnext.trans hs)]
    | some x =>
      obtain ⟨sign, skipped⟩ := x
      obtain ⟨ds, es, hp, -, hl, -, -, hk⟩ := nextSign?_pieces hs
      have hp' : pieces t = (ds ++ .code sign.char :: es) ++ pieces (t.drop skipped) := by rw [hp]; simp
      have hlt := (nextSign?_pos hs).1
      have htail := h.drop hp'
      have hle : skipped ≤ t.length := by
        have hlen := congrArg (List.length ∘ textOf) hp'
        simp only [Function.comp_apply, textOf_pieces, textOf_append, textOf_cons, Piece.text, List.length_append,
          List.length_singleton] at hlen
        omega
      have hread := readTerm_append htail hr hk sign
      rw [readChain_of_some hs, readChain_of_some (hnext.trans hs), List.drop_append_of_le_length hle]
      cases ht : readTerm sign (t.drop skipped) with
      | error e =>
        obtain ⟨e', he'⟩ := eq_error_of_toOption (hread.trans (congrArg Except.toOption ht))
        rw [he']
        rfl
      | ok x =>
        obtain ⟨term, n⟩ := x
        obtain ⟨hn, hbehind⟩ := htail.behind_term hk ht
        rw [List.drop_drop] at hbehind
        rw [List.length_drop] at hn
        have hrest := ih (t.drop (skipped + n)).length (by rw [List.length_drop]; omega) hbehind rfl
        rw [eq_ok_of_toOption (hread.trans (congrArg Except.toOption ht))]
        simp only [List.drop_append_of_le_length (show skipped + n ≤ t.length by omega)]
        cases hc : readChain (t.drop (skipped + n)) with
        | error e =>
          obtain ⟨e', he'⟩ := eq_error_of_toOption (hrest.trans (congrArg Except.toOption hc))
          rw [he']
          rfl
        | ok x => rw [eq_ok_of_toOption (hrest.trans (congrArg Except.toOption hc))]

/-- **The terms in front of a comma.** The same terms are read as without it. -/
theorem readTerms_append {b : Option Char} (h : Tail t r) (hr : EndsItem r) (hk : startsKeyword keyword b t = true)
    (sign : Sign) : (readTerms sign (t ++ r)).toOption = (readTerms sign t).toOption := by
  have hread := readTerm_append h hr hk sign
  rw [readTerms, readTerms]
  cases ht : readTerm sign t with
  | error e =>
    obtain ⟨e', he'⟩ := eq_error_of_toOption (hread.trans (congrArg Except.toOption ht))
    rw [he']
    rfl
  | ok x =>
    obtain ⟨term, n⟩ := x
    obtain ⟨hn, hbehind⟩ := h.behind_term hk ht
    have hrest := readChain_append hbehind hr
    rw [eq_ok_of_toOption (hread.trans (congrArg Except.toOption ht))]
    simp only [List.drop_append_of_le_length hn]
    cases hc : readChain (t.drop n) with
    | error e =>
      obtain ⟨e', he'⟩ := eq_error_of_toOption (hrest.trans (congrArg Except.toOption hc))
      rw [he']
      rfl
    | ok x => rw [eq_ok_of_toOption (hrest.trans (congrArg Except.toOption hc))]

end Append

end SqlDialect.Interval
