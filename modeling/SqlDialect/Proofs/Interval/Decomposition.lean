import SqlDialect.Proofs.Interval.Located

/-!
# What an interval expression is made of

Where `locate` finds an expression, the text in its place is the base, a sign, the keyword, an amount and a unit, and
the same for every further term, with spaces and comments between them, and with a parenthesis around all of it if the
expression fills one. Nothing else is lost when the expression is replaced.

* `cut_of_code`: at a position outside all regions the text can be cut between two pieces.
* `readSign_drop`: the text from the sign on.
* `locate_decomposes`: every character of the text of an expression is accounted for.
-/

namespace SqlDialect.Interval

/-! ## The parts of an expression -/

/-- An expression without a parenthesis around it: its base, spaces and comments, the first sign and blanks behind it,
and the terms. -/
def ExpressionPieces (base : Text) (terms : List Term) (ps : List Piece) : Prop :=
  ∃ (bs gap : List Piece) (blanks : Text) (t : Term) (ts : List Term) (qs rs : List Piece),
    ps = bs ++ (gap ++ .code t.sign.char :: (blanks.map .code ++ (qs ++ rs))) ∧ terms = t :: ts ∧ textOf bs = base ∧
      (∀ p ∈ gap, isTrivia p = true) ∧ (∀ c ∈ blanks, isBlank c = true) ∧ TermPieces t qs ∧ FurtherTerms ts rs

/-- The same in a parenthesis, with spaces and comments in front and blanks behind. -/
def GroupPieces (base : Text) (terms : List Term) (ps : List Piece) : Prop :=
  ∃ (gap inner : List Piece) (blanks : Text),
    ps = .code '(' :: (gap ++ (inner ++ (blanks.map .code ++ [.code ')']))) ∧ (∀ p ∈ gap, isTrivia p = true) ∧
      (∀ c ∈ blanks, isBlank c = true) ∧ ExpressionPieces base terms inner

/-- The positions from the start of the base up to the end of the terms, where the keyword of the first term stands at
position `kw`. -/
def innerSpan (text : Text) (kw : Nat) : Option (Nat × Nat) :=
  match readSign text kw with
  | .error _ => none
  | .ok (sign, signAt) =>
    match readBase text signAt (kw + keyword.length), readTerms sign (text.drop kw) with
    | .ok base, .ok (_, n) => some (base.start, kw + n)
    | _, _ => none

/-- Where the last character before position `i` stands that is no blank. -/
def lastBefore (text : Text) (i : Nat) : Nat := ((text.take i).reverse.dropWhile isBlank).length - 1

/-! ## Cuts -/

/-- At a position outside all regions the text can be cut between two pieces. -/
theorem cut_of_code {T : Text} {i : Nat} (h : regionAt? (regions T) i = none) (hi : i ≤ T.length) :
    ∃ ps : List Piece, pieces T = ps ++ pieces (T.drop i) ∧ (textOf ps).length = i := by
  have htext : textOf (pieces T) = T.take i ++ T.drop i := by rw [textOf_pieces, List.take_append_drop]
  have hlen : (T.take i).length = i := by rw [List.length_take, Nat.min_eq_left hi]
  rcases textOf_split htext with ⟨ms, ns, hp, hm, hn⟩ | ⟨ms, kind, t, u, ns, hp, hm, -, ht, hu⟩
  · exact ⟨ms, by rw [← hn, pieces_textOf hp, hp], by rw [hm, hlen]⟩
  · -- the region that covers the position would be found
    exfalso
    rw [hm, List.length_append] at hlen
    have h1 := List.length_pos_iff.mpr ht
    have h2 := List.length_pos_iff.mpr hu
    have hat := regionAt?_piece (i := i) hp (by omega) (by simp only [Piece.text, List.length_append]; omega)
    rw [h] at hat
    cases hat

/-- In front of a keyword that is code the text can be cut between two pieces. -/
theorem cut_of_keyword {T : Text} {kw : Nat} {b : Option Char} (hcode : regionAt? (regions T) kw = none)
    (hk : startsKeyword keyword b (T.drop kw) = true) :
    ∃ FS : List Piece, pieces T = FS ++ pieces (T.drop kw) ∧ (textOf FS).length = kw := by
  refine cut_of_code hcode (Nat.le_of_not_lt fun hlt => ?_)
  rw [List.drop_eq_nil_of_le (Nat.le_of_lt hlt)] at hk
  obtain ⟨v, x, hv, -, hlen, -⟩ := startsKeyword_keyword hk
  rw [(List.append_eq_nil_iff.mp hv.symm).1] at hlen
  exact keyword_ne_nil (List.length_eq_zero_iff.mp hlen.symm)

/-! ## From the sign to the keyword -/

/-- The text from the sign on: only blanks stand between it and the keyword. -/
theorem readSign_drop {T : Text} {kw signAt : Nat} {sign : Sign} (h : readSign T kw = .ok (sign, signAt)) :
    signAt = lastBefore T kw ∧ ∃ blanks : Text, (∀ c ∈ blanks, isBlank c = true) ∧
      T.drop signAt = sign.char :: (blanks ++ T.drop kw) := by
  obtain ⟨before, blanks, hd, htake, rfl, hblanks⟩ := readSign_ok h
  refine ⟨by rw [lastBefore, hd, List.length_cons, List.length_reverse, Nat.add_sub_cancel], blanks, hblanks, ?_⟩
  conv => lhs; rw [← List.take_append_drop kw T, htake]
  rw [List.append_assoc, List.drop_left]
  rfl

/-- The sign opens no comment: a blank or the keyword stands behind it. -/
theorem pieces_sign {text blanks : Text} {b : Option Char} (hk : startsKeyword keyword b text = true)
    (hb : ∀ c ∈ blanks, isBlank c = true) (sign : Sign) :
    pieces (sign.char :: (blanks ++ text)) = (.code sign.char :: blanks.map .code) ++ pieces text := by
  have hhead : (blanks ++ text).head? ≠ some '-' := by
    cases blanks with
    | cons c blanks =>
      intro he
      have hblank := hb c List.mem_cons_self
      rw [Option.some.inj he] at hblank
      cases hblank
    | nil =>
      obtain ⟨v, x, rfl, hv, hlen, -⟩ := startsKeyword_keyword hk
      intro he
      cases v with
      | nil => exact keyword_ne_nil (List.length_eq_zero_iff.mp hlen.symm)
      | cons c v =>
        have hword := isWord_of_lower_eq hv isWord_keyword c List.mem_cons_self
        rw [Option.some.inj he] at hword
        cases hword
  have hcode : regionTail? sign.char (blanks ++ text) = none := by
    rw [regionTail?_eq_none_iff, literalTail?_eq_none_iff, commentTail?_eq_none_iff]
    cases sign
    · exact ⟨fun hq => (by cases hq), by decide, fun hc => (by cases hc), fun hc => (by cases hc)⟩
    · exact ⟨fun hq => (by cases hq), by decide, fun hc => (by cases hc), fun _ he => absurd he hhead⟩
  rw [pieces_code hcode, pieces_spaces fun c hc => isSpace_of_isBlank (hb c hc)]
  rfl

/-- What stands between the gap behind the base and the keyword is the sign with blanks behind it. -/
theorem pieces_of_sign {T : Text} {kw signAt : Nat} {sign : Sign} {FJ M : List Piece} {b : Option Char}
    (hp : pieces T = FJ ++ (M ++ pieces (T.drop kw))) (hat : (textOf FJ).length = signAt)
    (hk : startsKeyword keyword b (T.drop kw) = true) (h : readSign T kw = .ok (sign, signAt)) :
    ∃ blanks : Text, (∀ c ∈ blanks, isBlank c = true) ∧ M = .code sign.char :: blanks.map .code := by
  obtain ⟨-, blanks, hblanks, hdrop⟩ := readSign_drop h
  refine ⟨blanks, hblanks, ?_⟩
  have hfrom := pieces_textOf hp
  rw [← drop_of_pieces hp hat, hdrop, pieces_sign hk hblanks] at hfrom
  exact (List.append_cancel_right hfrom).symm

/-! ## The whole expression -/

/-- The end of a group is the parenthesis that closes it. -/
theorem closing_of_groupEnd? {T : Text} {opener start stop close : Nat}
    (h : groupEnd? T opener start stop = some close) : findClosing T opener = some close ∧ close < T.length := by
  have hfind : findClosing T opener = some close := by
    unfold groupEnd? at h
    simp only at h
    split at h
    · next hcond => rw [hcond.2.2.1, h]
    · cases h
  obtain ⟨n, hn, hclose⟩ := Option.map_eq_some_iff.mp hfind
  have hlt := closingOffset?_lt hn
  rw [List.length_drop] at hlt
  exact ⟨hfind, by omega⟩

/-- A sign that stands in no comment is code, with only blanks between it and the keyword. -/
theorem pieces_from_sign {T : Text} {kw signAt : Nat} {sign : Sign} {A M : List Piece} {b : Option Char}
    (hk : startsKeyword keyword b (T.drop kw) = true)
    (hsign : ∀ r, regionAt? (regions T) (lastBefore T kw) = some r → r.kind ≠ .comment)
    (hread : readSign T kw = .ok (sign, signAt)) (hp : pieces T = A ++ (M ++ pieces (T.drop kw)))
    (hcut : AtOrInComment (textOf A).length signAt M) :
    ∃ blanks : Text, (∀ c ∈ blanks, isBlank c = true) ∧ M = .code sign.char :: blanks.map .code := by
  refine pieces_of_sign hp ?_ hk hread
  rcases hcut with hcut | ⟨t, M', rfl, h1, h2⟩
  · exact hcut
  · have hregion := regionAt?_piece (i := signAt) hp (Nat.le_of_lt h1) h2
    rw [(readSign_drop hread).1] at hregion
    exact absurd rfl (hsign _ hregion)

/-- An expression without a parenthesis around it stands where its base starts. -/
theorem inner_decomposes {T : Text} {kw signAt stop n : Nat} {sign : Sign} {base : Base} {terms : List Term}
    {FS : List Piece} {b : Option Char} (hp : pieces T = FS ++ pieces (T.drop kw)) (hl : (textOf FS).length = kw)
    (hk : startsKeyword keyword b (T.drop kw) = true)
    (hsign : ∀ r, regionAt? (regions T) (lastBefore T kw) = some r → r.kind ≠ .comment)
    (hread : readSign T kw = .ok (sign, signAt)) (hbase : readBase T signAt stop = .ok base)
    (hterms : readTerms sign (T.drop kw) = .ok (terms, n)) :
    ∃ FA Fb M inner : List Piece, BasePieces T base FA Fb M ∧ pieces T = FA ++ (inner ++ pieces (T.drop (kw + n))) ∧
      base.start + (textOf inner).length = kw + n ∧ ExpressionPieces base.text terms inner := by
  obtain ⟨FA, Fb, D, M, rfl, hD, hcut, hb⟩ := readBase_split hp hl hread hbase
  obtain ⟨blanks, hblanks, rfl⟩ := pieces_from_sign hk hsign hread (hp.trans (List.append_assoc ..)) hcut
  obtain ⟨t, ts, qs, rs, rfl, rfl, hq, hqlen, hterm, hfurther, -⟩ := readTerms_split hk hterms
  rw [List.drop_drop] at hq
  refine ⟨FA, Fb, _, Fb ++ (D ++ .code t.sign.char :: (blanks.map .code ++ (qs ++ rs))), hb, ?_, ?_,
    Fb, D, blanks, t, ts, qs, rs, rfl, rfl, hb.text, hD, hblanks, hterm, hfurther⟩
  · rw [hp, hq]
    simp
  · rw [← hb.start, ← hl, ← hqlen]
    simp only [textOf_append, textOf_cons, List.length_append]
    omega

/-- An expression that fills a parenthesis stands where that opens. -/
theorem group_decomposes {T : Text} {base : Base} {terms : List Term} {FA Fb M inner : List Piece}
    {opener stop close : Nat} (hb : BasePieces T base FA Fb M) (hp : pieces T = FA ++ (inner ++ pieces (T.drop stop)))
    (hinner : ExpressionPieces base.text terms inner) (hgroup : base.group = some opener)
    (hend : groupEnd? T opener base.start stop = some close) :
    ∃ ms ps : List Piece, pieces T = ms ++ (ps ++ pieces (T.drop (close + 1))) ∧ (textOf ms).length = opener ∧
      opener + (textOf ps).length = close + 1 ∧ GroupPieces base.text terms ps := by
  obtain ⟨ms, ds, bl, rfl, hmlen, -, htrivia, -, hbl, hclose⟩ := group_split hb hp hgroup hend
  have hcut : pieces T = ms ++ ((.code '(' :: (ds ++ (inner ++ (bl.map .code ++ [.code ')'])))) ++
      pieces (T.drop (close + 1))) := by
    rw [hp, hclose]
    simp
  refine ⟨ms, _, hcut, hmlen, ?_, ds, inner, bl, rfl, htrivia, hbl, hinner⟩
  obtain ⟨-, hlt⟩ := closing_of_groupEnd? hend
  have htotal := congrArg (List.length ∘ textOf) hcut
  simp only [Function.comp_apply, textOf_pieces, textOf_append, List.length_append, List.length_drop] at htotal ⊢
  omega

/-- **Nothing is lost.** If the keyword is code and the sign in front of it stands in no comment, the text in the place
of an expression is its base and its terms, with spaces and comments between them, and the parenthesis that it fills. -/
theorem locate_decomposes {T : Text} {kw : Nat} {e : Expression} (hcode : regionAt? (regions T) kw = none)
    (hk : startsKeyword keyword (T.take kw).getLast? (T.drop kw) = true)
    (hsign : ∀ r, regionAt? (regions T) (lastBefore T kw) = some r → r.kind ≠ .comment) (h : locate T kw = .ok e) :
    ∃ front ps behind : List Piece, pieces T = front ++ (ps ++ behind) ∧ (textOf front).length = e.start ∧
      Text.slice T e.start e.stop = textOf ps ∧
      (ExpressionPieces e.base e.terms ps ∨
        GroupPieces e.base e.terms ps ∧ findClosing T e.start = some (e.stop - 1)) := by
  obtain ⟨FS, hp, hl⟩ := cut_of_keyword hcode hk
  obtain ⟨sign, signAt, base, n, hread, hbase, hterms, htext, hplace⟩ := locate_ok h
  obtain ⟨FA, Fb, M, inner, hb, hall, hlength, hinner⟩ := inner_decomposes hp hl hk hsign hread hbase hterms
  rw [htext]
  rcases hplace with ⟨opener, close, hgroup, hend, hstart, hstop⟩ | ⟨-, hstart, hstop⟩ <;> rw [hstart, hstop]
  · obtain ⟨ms, ps, hcut, hmlen, hplen, hps⟩ := group_decomposes hb hall hinner hgroup hend
    exact ⟨ms, ps, _, hcut, hmlen, slice_of_pieces hcut hmlen hplen, Or.inr ⟨hps, (closing_of_groupEnd? hend).1⟩⟩
  · exact ⟨FA, inner, _, hall, hb.start, slice_of_pieces hall hb.start hlength, Or.inl hinner⟩

/-- Two terms with comments around their signs fill a parenthesis. -/
theorem locate_decomposes_group :
    let T := "where (t /* a */ - interval 5 second # b\n+ INTERVAL (n * 2) Minute )".toList
    let e : Expression := ⟨"t".toList, [⟨.minus, "5".toList, .second⟩, ⟨.plus, "(n * 2)".toList, .minute⟩], 6, 68⟩
    regionAt? (regions T) 19 = none ∧ startsKeyword keyword (T.take 19).getLast? (T.drop 19) = true ∧
      regionAt? (regions T) (lastBefore T 19) = none ∧ locate T 19 = .ok e ∧
      ∃ front ps behind : List Piece, pieces T = front ++ (ps ++ behind) ∧ (textOf front).length = 6 ∧
        Text.slice T 6 68 = textOf ps ∧ (ExpressionPieces e.base e.terms ps ∨
          GroupPieces e.base e.terms ps ∧ findClosing T 6 = some 67) := by
  intro T e
  have hcode : regionAt? (regions T) 19 = none := by decide +kernel
  have hkeyword : startsKeyword keyword (T.take 19).getLast? (T.drop 19) = true := by decide +kernel
  have hsign : regionAt? (regions T) (lastBefore T 19) = none := by decide +kernel
  have hlocate : locate T 19 = .ok e := eq_ok_of_toOption (by decide +kernel)
  refine ⟨hcode, hkeyword, hsign, hlocate, locate_decomposes hcode hkeyword (fun r hr => ?_) hlocate⟩
  rw [hsign] at hr
  cases hr

end SqlDialect.Interval
