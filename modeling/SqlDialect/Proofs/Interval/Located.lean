import SqlDialect.Proofs.Words
import SqlDialect.Proofs.Interval.Base

/-!
# The pieces of an interval expression

An interval expression that is found in a text is made of whole pieces: the base, the amounts, and what is dropped
between and around them.

* `Interval.Located`: the pieces of the text with an expression in it.
* `Interval.locate_pieces`: every expression that is found is located so.
-/

namespace SqlDialect.Interval

/-- The text ends with no name, or with a stop word. -/
def EndsWords (text : Text) : Prop := text.getLast?.any isName = false ∨ EndsInStopWord text

/-- The expression `e` in the text `T`. Behind what is kept, `FA`, stand a grouping parenthesis or nothing (`G`), the
base (`Fb`), what is dropped in front of the first keyword (`M`), the terms (`Qs`), and the end of the group (`H`). -/
structure Located (T : Text) (e : Expression) (FA G Fb M Qs H : List Piece) : Prop where
  pieces : pieces T = (FA ++ (G ++ (Fb ++ M))) ++ (Qs ++ (H ++ SqlDialect.pieces (T.drop e.stop)))
  start : (textOf FA).length = e.start
  base : textOf Fb = e.base
  base_ne : e.base ≠ []
  front : EndsWords (textOf FA)
  wordBreak : WordBreak (textOf FA) (T.drop e.start)
  mark : (textOf FA).getLast? = some '%' → (T.drop e.start).head? = some '('
  next : (textOf (G ++ Fb)).head?.any isBlank = false
  last : ∀ t, Fb.getLast? ≠ some (.region .comment t)
  group : ∀ p ∈ G, isDropped p = true
  group_last : (textOf G).getLast?.any isWord = false
  dropped_ne : M ≠ []
  dropped : ∀ p ∈ M, isDropped p = true
  dropped_last : (textOf M).getLast?.any isWord = false
  terms : TermsPieces e.terms Qs
  close : ∀ p ∈ H, isDropped p = true
  close_last : (textOf H).getLast?.any isWord = false
  after : (textOf H ++ T.drop e.stop).head?.any isWord = false

theorem Located.chain {T : Text} {e : Expression} {FA G Fb M Qs H : List Piece} (h : Located T e FA G Fb M Qs H) :
    ChainPieces e.terms (M ++ Qs) :=
  h.terms.chain h.dropped_ne h.dropped h.dropped_last

/-! ## A group -/

/-- In front of a grouping parenthesis no name stands but a stop word. -/
theorem endsWords_of_opensList {text : Text} (h : opensList text = false) : EndsWords text := by
  cases hl : text.getLast? with
  | none => exact Or.inl (by rw [hl]; rfl)
  | some c =>
    by_cases hc : isName c = true
    · refine Or.inr ?_
      have hname := hc
      simp only [isName, Bool.and_eq_true, Bool.not_eq_true'] at hname
      have htrim : Text.trimEnd text = text := by
        obtain ⟨s, hs, hspace⟩ := Text.trimEnd_decomp text
        cases hsl : s.getLast? with
        | none => rw [List.getLast?_eq_none_iff.mp hsl, List.append_nil] at hs; exact hs.symm
        | some d =>
          rw [hs, List.getLast?_append, hsl, Option.some_or, Option.some.injEq] at hl
          rw [← hl, hspace d (List.mem_of_getLast? hsl)] at hname
          cases hname.2
      have htext : text = (text.reverse.dropWhile isWord).reverse ++ lastWord text := by
        rw [lastWord, htrim, ← List.reverse_append, List.takeWhile_append_dropWhile, List.reverse_reverse]
      have hne : lastWord text ≠ [] := fun e => by
        obtain ⟨ys, rfl⟩ := List.getLast?_eq_some_iff.mp hl
        rw [lastWord, htrim, List.reverse_eq_nil_iff, List.reverse_append, List.reverse_singleton,
          List.singleton_append, List.takeWhile_cons_of_pos hname.1] at e
        cases e
      rw [opensList, Bool.and_eq_false_iff] at h
      simp only [Bool.or_eq_false_iff, Bool.not_eq_false'] at h
      rcases h with h | h
      · exact absurd (by simpa using h) hne
      · obtain ⟨w, hw, hsame⟩ := List.any_eq_true.mp h.1
        refine ⟨_, _, w, htext, hw, by simpa [Text.same] using hsame, ?_⟩
        have hnot := List.head?_dropWhile_not isWord text.reverse
        rw [List.getLast?_reverse]
        cases hd : (text.reverse.dropWhile isWord).head? with
        | none => rfl
        | some d => rw [hd] at hnot; exact hnot
    · exact Or.inl (by rw [hl]; simpa using hc)

/-- The end of a group. -/
theorem groupEnd?_pieces {T : Text} {opener start stop close : Nat} (h : groupEnd? T opener start stop = some close) :
    T[opener]? = some '(' ∧ start = opener + 1 + triviaLength (T.drop (opener + 1)) ∧
      opensList (T.take opener) = false ∧
      ∃ bl : Text, (∀ c ∈ bl, isBlank c = true) ∧
        pieces (T.drop stop) = bl.map .code ++ .code ')' :: pieces (T.drop (close + 1)) := by
  unfold groupEnd? at h
  simp only at h
  split at h
  · next hcond =>
    obtain ⟨h1, h2, h3, h4⟩ := hcond
    have hclose := Option.some.inj h
    refine ⟨h1, h2.symm, by simpa using h4, (T.drop stop).takeWhile isBlank, fun c hc => ?_, ?_⟩
    · exact List.all_eq_true.mp List.all_takeWhile c hc
    · rw [hclose] at h3
      obtain ⟨ps, d, hp, rfl, hcode, -, hd⟩ := findClosing_split h1 rfl h3
      obtain rfl := eq_of_openerOf? hd
      have hblanks : T.drop stop =
          (T.drop stop).takeWhile isBlank ++ ')' :: T.drop (opener + 1 + (textOf ps).length + 1) := by
        obtain ⟨hlt, hget⟩ := List.getElem?_eq_some_iff.mp hcode
        rw [← hget, ← List.drop_eq_getElem_cons hlt, ← hclose, ← List.drop_drop]
        conv => lhs; rw [← List.take_append_drop ((T.drop stop).takeWhile isBlank).length (T.drop stop)]
        congr 1
        exact (List.prefix_iff_eq_take.mp (List.takeWhile_prefix isBlank)).symm
      conv => lhs; rw [hblanks]
      rw [pieces_spaces fun c hc => isSpace_of_isBlank (List.all_eq_true.mp List.all_takeWhile c hc)]
      congr 1
      exact pieces_code (regionTail?_of_ne (by decide) (by decide) (by decide) (by decide) _)
  · cases h

/-! ## The whole expression -/

/-- Two cuts at one position are the same. -/
theorem pieces_prefix_unique {T : Text} {xs xs' ys ys' : List Piece} (h : pieces T = xs ++ ys)
    (h' : pieces T = xs' ++ ys') (hl : (textOf xs).length = (textOf xs').length) : xs = xs' := by
  rcases List.append_eq_append_iff.mp (h.symm.trans h') with ⟨z, rfl, hz⟩ | ⟨z, rfl, hz⟩
  · rw [textOf_append, List.length_append] at hl
    rw [hz] at h
    have hnil : z = [] := textOf_eq_nil (pieces_textOf h) (List.length_eq_zero_iff.mp (by omega))
    rw [hnil, List.append_nil]
  · rw [textOf_append, List.length_append] at hl
    rw [hz] at h'
    have hnil : z = [] := textOf_eq_nil (pieces_textOf h') (List.length_eq_zero_iff.mp (by omega))
    rw [hnil, List.append_nil]

theorem dropped_parenthesis {bl : Text} (hbl : ∀ c ∈ bl, isBlank c = true) :
    ∀ p ∈ bl.map Piece.code ++ [.code ')'], isDropped p = true := by
  intro p hp
  rcases List.mem_append.mp hp with hp | hp
  · obtain ⟨c, hc, rfl⟩ := List.mem_map.mp hp
    exact isDropped_of_isTrivia (isSpace_of_isBlank (hbl c hc))
  · rw [List.mem_singleton.mp hp]
    rfl

/-- A base that does not fill a group. -/
theorem located_plain {T : Text} {base : Base} {ts : List Term} {FA Fb M Qs : List Piece} {stop : Nat}
    (hb : BasePieces T base FA Fb M) (hp : pieces T = (FA ++ (Fb ++ M)) ++ (Qs ++ pieces (T.drop stop)))
    (hts : TermsPieces ts Qs) (hafter : (T.drop stop).head?.any isWord = false) :
    Located T ⟨base.text, ts, base.start, stop⟩ FA [] Fb M Qs [] where
  pieces := by simpa using hp
  start := hb.start
  base := hb.text
  base_ne := hb.ne
  front := by
    rcases hb.front with h | h
    · refine Or.inl ?_
      cases hl : (textOf FA).getLast? with
      | none => rfl
      | some c => rw [hl] at h; exact isName_of_isWord h
    · exact Or.inr h.1
  wordBreak := by
    rcases hb.front with h | h
    · exact Or.inl fun c hc => by rw [hc] at h; exact h
    · exact Or.inr fun c hc => by have h2 := h.2; rw [hc] at h2; exact h2
  mark hl := absurd hl hb.mark
  next := by rw [List.nil_append, hb.text]; exact hb.head
  last := hb.last
  group := by simp
  group_last := rfl
  dropped_ne := hb.dropped_ne
  dropped := hb.dropped
  dropped_last := hb.dropped_last
  terms := hts
  close := by simp
  close_last := rfl
  after := hafter

/-- The grouping parenthesis in front of a base, and the end of the group. -/
theorem group_split {T : Text} {base : Base} {FA Fb M rest : List Piece} {opener stop close : Nat}
    (hb : BasePieces T base FA Fb M) (hp : pieces T = FA ++ rest) (hgroup : base.group = some opener)
    (hend : groupEnd? T opener base.start stop = some close) :
    ∃ (ms ds : List Piece) (bl : Text), FA = ms ++ .code '(' :: ds ∧ (textOf ms).length = opener ∧
      T = textOf ms ++ '(' :: T.drop (opener + 1) ∧ (∀ p ∈ ds, isTrivia p = true) ∧
      (∀ c, .code c ∈ ds → isBlank c = true) ∧ (∀ c ∈ bl, isBlank c = true) ∧
      pieces (T.drop stop) = bl.map .code ++ .code ')' :: pieces (T.drop (close + 1)) := by
  obtain ⟨hopen, hstart, -, bl, hbl, hclose⟩ := groupEnd?_pieces hend
  obtain ⟨ms, c, hms, hmlen⟩ := hb.group opener hgroup
  obtain ⟨ds, hds, hdlen, htrivia, hblank, -⟩ := pieces_trivia (T.drop (opener + 1))
  rw [List.drop_drop] at hds
  have hT : T = textOf ms ++ (c :: T.drop (opener + 1)) := by
    conv => lhs; rw [← textOf_pieces T, hms, textOf_append, textOf_cons, textOf_pieces]
    rfl
  have hc : c = '(' := by
    rw [← List.head?_drop] at hopen
    rw [hT, ← hmlen, List.drop_left] at hopen
    exact Option.some.inj hopen
  subst hc
  rw [← hstart] at hds
  refine ⟨ms, ds, bl, ?_, hmlen, hT, htrivia, hblank, hbl, hclose⟩
  have hcut : pieces T = (ms ++ .code '(' :: ds) ++ pieces (T.drop base.start) := by rw [hms, hds]; simp
  refine pieces_prefix_unique hp hcut ?_
  rw [hb.start, textOf_append, textOf_cons, List.length_append, List.length_append, hmlen, hdlen]
  simp only [Piece.text, List.length_singleton]
  omega

/-- The pieces around an expression that is dropped with them: none, or a grouping parenthesis with spaces and comments
behind it and blanks in front of its end. -/
def Encloses (G H : List Piece) : Prop :=
  G = [] ∧ H = [] ∨ ∃ (ds : List Piece) (bl : Text), G = .code '(' :: ds ∧ H = bl.map .code ++ [.code ')'] ∧
    (∀ p ∈ ds, isTrivia p = true) ∧ ∀ c ∈ bl, isBlank c = true

/-- A base that fills a group with the terms behind it. -/
theorem located_group {T : Text} {base : Base} {ts : List Term} {FA Fb M Qs : List Piece} {opener stop close : Nat}
    (hb : BasePieces T base FA Fb M) (hp : pieces T = (FA ++ (Fb ++ M)) ++ (Qs ++ pieces (T.drop stop)))
    (hts : TermsPieces ts Qs) (hafter : (T.drop stop).head?.any isWord = false)
    (hgroup : base.group = some opener) (hend : groupEnd? T opener base.start stop = some close) :
    ∃ ms G H, FA = ms ++ G ∧ Encloses G H ∧ Located T ⟨base.text, ts, opener, close + 1⟩ ms G Fb M Qs H := by
  obtain ⟨-, -, hlist, -⟩ := groupEnd?_pieces hend
  obtain ⟨ms, ds, bl, rfl, hmlen, hT, htrivia, hblank, hbl, hclose⟩ :=
    group_split hb (hp.trans (List.append_assoc ..)) hgroup hend
  have hdrop : T.drop opener = '(' :: T.drop (opener + 1) := by
    conv => lhs; rw [hT]
    rw [← hmlen, List.drop_left]
  have htake : T.take opener = textOf ms := by
    conv => lhs; rw [hT]
    rw [← hmlen, List.take_left]
  refine ⟨ms, .code '(' :: ds, bl.map .code ++ [.code ')'], rfl, Or.inr ⟨ds, bl, rfl, rfl, htrivia, hbl⟩, ?_⟩
  exact {
    pieces := by rw [hp, hclose]; simp
    start := hmlen
    base := hb.text
    base_ne := hb.ne
    front := by rw [← htake]; exact endsWords_of_opensList hlist
    wordBreak := Or.inr fun c hc => by
      rw [hdrop] at hc
      rw [← Option.some.inj hc]
      decide
    mark := fun _ => by rw [hdrop]; rfl
    next := by simp [Piece.text]; decide
    last := hb.last
    group := fun p hp => by
      rcases List.mem_cons.mp hp with rfl | hp
      · rfl
      · exact isDropped_of_isTrivia (htrivia p hp)
    group_last := by
      by_cases hds' : ds = []
      · rw [hds']
        rfl
      · have hrest : pieces T = (ms ++ .code '(' :: ds) ++ (Fb ++ (M ++ (Qs ++ pieces (T.drop stop)))) := by
          rw [hp]
          simp only [List.append_assoc]
        have hbase : T.drop base.start = textOf (Fb ++ (M ++ (Qs ++ pieces (T.drop stop)))) :=
          drop_of_pieces hrest hb.start
        have hcut : pieces T = (ms ++ [.code '(']) ++ (ds ++ pieces (T.drop base.start)) := by
          rw [hbase, pieces_textOf hrest, hrest]
          simp
        obtain ⟨d, u, hd⟩ := List.exists_cons_of_ne_nil hb.ne
        have hhead := hb.head
        rw [textOf_append, hb.text, hd, List.cons_append] at hbase
        rw [hd] at hhead
        obtain ⟨e, he, hw, -⟩ := trivia_last hcut htrivia hblank (by rw [hbase]; simp) (by rw [hbase]; exact hhead) hds'
        rw [textOf_cons, List.getLast?_append, he, Option.some_or, Option.any_some, hw]
    dropped_ne := hb.dropped_ne
    dropped := hb.dropped
    dropped_last := hb.dropped_last
    terms := hts
    close := dropped_parenthesis hbl
    close_last := by simp [Piece.text]; decide
    after := by
      have htext := congrArg textOf hclose
      rw [textOf_pieces, textOf_append, textOf_cons, textOf_pieces] at htext
      rw [htext] at hafter
      rw [textOf_append, List.append_assoc]
      exact hafter }

/-- **Locating an expression.** Every expression that is found is made of whole pieces of the text, and its base and
what is kept before it stand before the keyword. -/
theorem locate_split {T : Text} {kw : Nat} {e : Expression} {FS : List Piece}
    (hp : pieces T = FS ++ pieces (T.drop kw)) (hl : (textOf FS).length = kw) {b : Option Char}
    (hk : startsKeyword keyword b (T.drop kw) = true) (h : locate T kw = .ok e) :
    ∃ (FA G Fb D M Qs H : List Piece) (sign : Sign) (signAt : Nat) (base : Base),
      FS = FA ++ (G ++ (Fb ++ (D ++ M))) ∧ Located T e FA G Fb (D ++ M) Qs H ∧ Encloses G H ∧
      (∀ p ∈ D, isTrivia p = true) ∧ readSign T kw = .ok (sign, signAt) ∧
      readBase T signAt (kw + keyword.length) = .ok base ∧ BasePieces T base (FA ++ G) Fb (D ++ M) ∧
      AtOrInComment (textOf (FA ++ (G ++ (Fb ++ D)))).length signAt M := by
  obtain ⟨text, ts, start, stop⟩ := e
  obtain ⟨sign, signAt, base, n, hsign, hbase, hts, htext, hplace⟩ := locate_ok h
  obtain rfl : text = base.text := htext
  obtain ⟨FA, Fb, D, M, rfl, hD, hcut, hb⟩ := readBase_split hp hl hsign hbase
  obtain ⟨Qs, hq, hqlen, hterms, hafter⟩ := readTerms_pieces hk hts
  rw [List.drop_drop] at hq hafter
  have hall : pieces T = (FA ++ (Fb ++ (D ++ M))) ++ (Qs ++ pieces (T.drop (kw + n))) := by
    rw [hp, hq]
    simp
  rcases hplace with ⟨opener, close, hgroup, hend, hstart, hstop⟩ | ⟨-, hstart, hstop⟩
  · obtain rfl : start = opener := hstart
    obtain rfl : stop = close + 1 := hstop
    obtain ⟨ms, G, H, rfl, hshape, hloc⟩ := located_group hb hall hterms hafter hgroup hend
    exact ⟨ms, G, Fb, D, M, Qs, H, sign, signAt, base, by simp, hloc, hshape, hD, hsign, hbase, hb,
      by simpa using hcut⟩
  · obtain rfl : start = base.start := hstart
    obtain rfl : stop = kw + n := hstop
    exact ⟨FA, [], Fb, D, M, Qs, [], sign, signAt, base, by simp, located_plain hb hall hterms hafter,
      Or.inl ⟨rfl, rfl⟩, hD, hsign, hbase, by simpa using hb, by simpa using hcut⟩

theorem locate_pieces {T : Text} {kw : Nat} {e : Expression} {FS : List Piece}
    (hp : pieces T = FS ++ pieces (T.drop kw)) (hl : (textOf FS).length = kw) {b : Option Char}
    (hk : startsKeyword keyword b (T.drop kw) = true) (h : locate T kw = .ok e) :
    ∃ FA G Fb M Qs H, FS = FA ++ (G ++ (Fb ++ M)) ∧ Located T e FA G Fb M Qs H := by
  obtain ⟨FA, G, Fb, D, M, Qs, H, -, -, -, hcut, hloc, -⟩ := locate_split hp hl hk h
  exact ⟨FA, G, Fb, D ++ M, Qs, H, hcut, hloc⟩

end SqlDialect.Interval
