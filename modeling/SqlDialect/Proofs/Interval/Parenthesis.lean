import SqlDialect.Proofs.Interval.Bounded

/-!
# The parenthesis that an expression fills

An expression that fills a parenthesis takes it along if the parenthesis only groups. Whether it does is read from the
word in front of it. Arguments and values also stand behind quoted names and behind the comma of a row of values, where
there is no word, and a comment may stand between the name and the parenthesis; then its text is read for the word.

* `group_of_fills`: the base of an expression that fills a parenthesis stands behind it.
* `opensList_iff`: in front of which lists a word is found.
* `locate_keeps_iff`: which lists keep their parentheses.
-/

namespace SqlDialect.Interval

/-! ## Filling a parenthesis -/

/-- The base and the terms fill the parenthesis at position `opener` up to blanks and comments. -/
structure Fills (T : Text) (kw start stop opener close : Nat) : Prop where
  span : innerSpan T kw = some (start, stop)
  parenthesis : T[opener]? = some '('
  closed : findClosing T opener = some close
  front : opener + 1 + triviaLength (T.drop (opener + 1)) = start
  behind : stop + triviaLength (T.drop stop) = close

/-- No blank bounds an operand. -/
theorem bounds_of_isBlank {c : Char} (h : isBlank c = true) : isOpener c = false ∧ isSeparator c = false := by
  simp only [isBlank, Bool.or_eq_true, decide_eq_true_eq] at h
  rcases h with (((rfl | rfl) | rfl) | rfl) | rfl <;> decide

theorem le_stopWordCut {limit : Nat} {before : Option Char} {i start : Nat} {rest : Text} (h : start ≤ i) :
    start ≤ stopWordCut limit before i start rest := by
  fun_induction stopWordCut limit before i start rest with
  | case1 | case2 => exact Nat.le_refl _
  | case3 _ _ _ _ _ _ _ _ _ ih | case4 _ _ _ _ _ _ _ _ ih | case5 _ _ _ _ _ _ _ _ _ ih
  | case7 _ _ _ _ _ _ _ _ _ ih => exact ih (by omega)
  | case6 _ i start _ _ _ _ _ _ _ n =>
    rename_i ih
    exact Nat.le_trans (by omega) (ih (Nat.le_refl _))

/-- The base starts behind its boundary. -/
theorem boundary_le_of_readBase {T : Text} {signAt stop : Nat} {base : Base} {bound : Boundary}
    (h : readBase T signAt stop = .ok base) (hb : boundaryBefore (marksBefore T signAt) = .ok bound) :
    bound.start ≤ base.start := by
  obtain ⟨bound', hbound, hstart, -⟩ := readBase_ok h
  obtain rfl : bound' = bound := Except.ok.inj (hbound.symm.trans hb)
  have hlt := (start_lt_of_readBase h).1
  have hcut := @le_stopWordCut signAt (T.take bound'.start).getLast? bound'.start _ (T.drop bound'.start)
    (Nat.le_refl _)
  rw [baseStart] at hstart
  omega

/-- The boundary behind an opening bracket or a separator. -/
theorem boundaryBefore_last {ps : List Piece} {c : Char} (h : isOpener c = true ∨ isSeparator c = true) :
    ∃ b, boundaryBefore (marksBack (ps ++ [.code c])) = .ok b ∧ b.start = (textOf ps).length + 1 ∧
      (isOpener c = true → b = .group (textOf ps).length) := by
  have hquote : isQuote c = false ∧ isCloser c = false := by
    rcases h with ho | hs
    · exact ⟨isQuote_of_isOpener ho, isCloser_of_isOpener ho⟩
    · simp only [isSeparator, Bool.or_eq_true, decide_eq_true_eq] at hs
      rcases hs with (((rfl | rfl) | rfl) | rfl) | rfl <;> exact ⟨rfl, rfl⟩
  rw [marksBack_append, marksBack_code, List.singleton_append, boundaryBefore, if_neg (by simp [hquote.1]),
    if_neg (by simp [hquote.2]), ← length_marksBack]
  by_cases ho : isOpener c = true
  · rw [if_pos ho]
    exact ⟨_, rfl, rfl, fun _ => rfl⟩
  · rw [if_neg ho, if_pos (h.resolve_left ho)]
    exact ⟨_, rfl, rfl, fun ho' => absurd ho' ho⟩

/-- The search to the left from a place among some pieces passes over the last of them. -/
theorem exists_cut {T : Text} {fs ps rs : List Piece} {i : Nat} (hp : pieces T = fs ++ (ps ++ rs))
    (h1 : (textOf fs).length ≤ i) (h2 : i ≤ (textOf (fs ++ ps)).length) :
    ∃ as bs, ps = as ++ bs ∧ (textOf (fs ++ as)).length ≤ i ∧
      boundaryBefore (marksBefore T i) = boundaryBefore (marksBack (fs ++ as)) := by
  obtain ⟨k, rfl⟩ := Nat.le.dest h1
  rw [textOf_append, List.length_append] at h2
  have hlen : ((textOf ps).take k).length = k := by rw [List.length_take]; omega
  rcases textOf_split (List.take_append_drop k (textOf ps)).symm with ⟨as, bs, rfl, has, -⟩ |
    ⟨as, kind, t, u, bs, rfl, has, -⟩
  · have hk : (textOf (fs ++ as)).length = (textOf fs).length + k := by
      rw [textOf_append, List.length_append, has, hlen]
    have hcut : pieces T = (fs ++ as) ++ (bs ++ rs) := by rw [hp]; simp
    exact ⟨as, bs, rfl, Nat.le_of_eq hk, by rw [← hk, marksBefore_pieces hcut]⟩
  · have hk : (textOf (fs ++ as)).length + t.length = (textOf fs).length + k := by
      rw [has, List.length_append] at hlen
      rw [textOf_append, List.length_append]
      omega
    have hcut : pieces T = (fs ++ as) ++ .region kind (t ++ u) :: (bs ++ rs) := by rw [hp]; simp
    refine ⟨as, _, rfl, by omega, ?_⟩
    rw [← hk]
    exact boundaryBefore_region hcut (by rw [List.length_append]; omega)

/-- **The boundary in a parenthesis** is the parenthesis, or it stands behind a bracket or a separator in it. -/
theorem boundary_in_parenthesis {T : Text} {fs ps rs : List Piece} {i : Nat}
    (hp : pieces T = (fs ++ [.code '(']) ++ (ps ++ rs)) (hn : nest [] ps = some [])
    (h1 : (textOf (fs ++ [.code '('])).length ≤ i) (h2 : i ≤ (textOf ((fs ++ [.code '(']) ++ ps)).length) :
    ∃ cs ds b, ps = cs ++ ds ∧ Bounds cs ∧ boundaryBefore (marksBefore T i) = .ok b ∧
      b.start = (textOf ((fs ++ [.code '(']) ++ cs)).length ∧ (cs = [] → b = .group (textOf fs).length) := by
  obtain ⟨as, bs, rfl, -, hmarks⟩ := exists_cut hp h1 h2
  obtain ⟨s, has, -⟩ := nest_prefix hn
  obtain ⟨cs, xs, rfl, hxs, hcs⟩ := exists_operand has
  rw [hmarks, ← List.append_assoc, marksBack_append, boundaryBefore_operand hxs]
  rcases id hcs with rfl | ⟨ms, c, rfl, hc⟩
  · obtain ⟨b, hb, hstart, hgroup⟩ := @boundaryBefore_last fs '(' (Or.inl rfl)
    refine ⟨[], xs ++ bs, b, rfl, Or.inl rfl, by rwa [List.append_nil], ?_, fun _ => hgroup rfl⟩
    rw [hstart, List.append_nil, textOf_append, List.length_append]
    rfl
  · obtain ⟨b, hb, hstart, -⟩ := @boundaryBefore_last ((fs ++ [.code '(']) ++ ms) c hc
    refine ⟨ms ++ [.code c], xs ++ bs, b, List.append_assoc .., hcs, by rwa [← List.append_assoc], ?_, fun he => ?_⟩
    case refine_2 => cases (List.append_eq_nil_iff.mp he).2
    rw [hstart, ← List.append_assoc, textOf_append _ [.code c], List.length_append]
    rfl

/-- **A base that fills a parenthesis** with the terms behind it stands behind that parenthesis. -/
theorem group_of_fills {T : Text} {kw signAt start stop opener close : Nat} {sign : Sign} {base : Base}
    {fs rest : List Piece} (hp : pieces T = fs ++ .code '(' :: rest) (hl : (textOf fs).length = opener)
    (hf : Fills T kw start stop opener close) (hsign : readSign T kw = .ok (sign, signAt))
    (hbase : readBase T signAt (kw + keyword.length) = .ok base) (hstart : base.start = start) (hstop : kw ≤ stop) :
    base.group = some opener := by
  obtain ⟨ps, d, hps, hclose, -, hbal, -⟩ := findClosing_split hf.parenthesis rfl hf.closed
  have hcut : pieces T = (fs ++ [.code '(']) ++ rest := by rw [hp]; simp
  have hlen : (textOf (fs ++ [.code '('])).length = opener + 1 := by simp [hl, Piece.text]
  rw [drop_of_pieces hcut hlen, pieces_textOf hcut] at hps
  have hlt := (start_lt_of_readBase hbase).1
  have hfront := hf.front
  have hbehind := hf.behind
  have hsignAt : signAt < kw := by
    obtain ⟨a, b, hab, rfl, hb, -⟩ := readSign_split hsign
    have hlen := congrArg List.length hab
    have hpos := List.length_pos_iff.mpr hb
    rw [List.length_take, List.length_append] at hlen
    omega
  rw [hps] at hcut
  obtain ⟨cs, ds, b, rfl, hcs, hb, hbstart, hgroup⟩ :=
    boundary_in_parenthesis hcut hbal (i := signAt) (by omega) (by rw [textOf_append, List.length_append]; omega)
  have hle := boundary_le_of_readBase hbase hb
  obtain ⟨bound, hbound, -, -, -, hiff⟩ := readBase_ok hbase
  obtain rfl : bound = b := Except.ok.inj (hbound.symm.trans hb)
  rw [hiff, ← hl]
  refine hgroup ?_
  rcases hcs with hnil | ⟨ms, c, rfl, hc⟩
  · exact hnil
  · -- only blanks and comments stand between the parenthesis and the base
    exfalso
    obtain ⟨es, hes, heslen, -, hblank, -⟩ := pieces_trivia (T.drop (opener + 1))
    have hin : pieces T = ((fs ++ [.code '(']) ++ (ms ++ [.code c])) ++
        (ds ++ .code d :: pieces (T.drop (close + 1))) := by
      rw [hcut]
      simp only [List.append_assoc]
    have hsame : (ms ++ [.code c]) ++ pieces (textOf (ds ++ .code d :: pieces (T.drop (close + 1)))) =
        es ++ pieces ((T.drop (opener + 1)).drop (triviaLength (T.drop (opener + 1)))) := by
      rw [pieces_textOf hin, ← hes, drop_of_pieces hcut hlen, pieces_textOf hcut]
      simp
    obtain ⟨zs, rfl, -⟩ := split_of_length_le hsame (by
      rw [textOf_append _ (ms ++ _), List.length_append] at hbstart
      omega)
    obtain ⟨hopener, hseparator⟩ := bounds_of_isBlank (hblank c (by simp))
    rw [hopener, hseparator] at hc
    exact hc.elim Bool.false_ne_true Bool.false_ne_true

/-! ## The word in front of a parenthesis -/

/-- A mark or bracket at the start hides the words in front of it. -/
theorem lastWord_append (x : Text) {t : Text} {c : Char} (ht : t.head? = some c) (hs : isSpace c = false)
    (hw : isWord c = false) : lastWord (x ++ t) = lastWord t := by
  obtain ⟨u, rfl⟩ := List.head?_eq_some_iff.mp ht
  have hback : ∀ y : Text, lastWord ((y ++ [c]) ++ u) = ((Text.trimEnd u).reverse.takeWhile isWord).reverse := by
    intro y
    rw [lastWord, trimEnd_append (by simp [hs]), List.reverse_append, List.reverse_append, List.reverse_singleton,
      List.singleton_append, (takeWhile_append_end (by simpa using hw) _).1]
  rw [List.append_cons, hback]
  exact (hback []).symm

theorem lastWord_spaces (x : Text) {s : Text} (hs : ∀ c ∈ s, isSpace c = true) : lastWord (x ++ s) = lastWord x := by
  rw [lastWord, lastWord, trimEnd_append_spaces x hs]

/-- The last word of a text that ends with one. -/
theorem lastWord_name {x v : Text} (hne : v ≠ []) (hv : ∀ c ∈ v, isWord c = true)
    (hs : v.getLast?.any isSpace = false) (hx : x.getLast?.any isWord = false) : lastWord (x ++ v) = v := by
  have htrim : Text.trimEnd (x ++ v) = x ++ v := by
    have := trimEnd_append (x := x ++ v) (by
      rw [List.getLast?_append, List.getLast?_eq_some_getLast hne] at *
      simpa using hs) []
    simpa [Text.trimEnd] using this
  rw [lastWord, htrim, List.reverse_append, takeWhile_whole (by simpa using hv) (by rwa [List.head?_reverse]),
    List.reverse_reverse]

/-- A text that ends with no word has no last word. -/
theorem lastWord_eq_nil {x : Text} {c : Char} (hx : x.getLast? = some c) (hs : isSpace c = false)
    (hw : isWord c = false) : lastWord x = [] := by
  obtain ⟨y, rfl⟩ := List.getLast?_eq_some_iff.mp hx
  have htrim := trimEnd_append (x := y ++ [c]) (by simp [hs]) []
  rw [List.append_nil] at htrim
  rw [lastWord, htrim]
  simp [Text.trimEnd, hw]

/-! ## Lists -/

/-- A row of values with the comma behind it. -/
def IsRow (qs : List Piece) : Prop :=
  ∃ gap row gap', qs = gap ++ .code '(' :: (row ++ .code ')' :: (gap' ++ [.code ','])) ∧
    (∀ p ∈ gap ++ gap', isTrivia p = true) ∧ nest [] row = some []

/-- The pieces end with the comma behind a row of a list of values. -/
inductive BehindRow : List Piece → Prop where
  | first (ms : List Piece) {v : Text} {qs : List Piece} : (textOf ms).getLast?.any isWord = false →
      Text.same v "values".toList = true → IsRow qs → BehindRow (ms ++ (v.map .code ++ qs))
  | next {ms qs : List Piece} : BehindRow ms → IsRow qs → BehindRow (ms ++ qs)

/-- The pieces end with a token behind which a parenthesis holds arguments or values. -/
inductive ListToken : List Piece → Prop where
  /-- A name that is no keyword in front of an operand, or one of the words in front of a list. -/
  | name (ms : List Piece) {v : Text} : v ≠ [] → (∀ c ∈ v, isWord c = true) → v.getLast?.any isSpace = false →
      (textOf ms).getLast?.any isWord = false →
      (stopWords.any (Text.same v) = false ∨ listWords.any (Text.same v) = true) → ListToken (ms ++ v.map .code)
  /-- A quoted name. -/
  | quoted (ms : List Piece) {t : Text} : t.head? = some '\x60' → ListToken (ms ++ [.region .literal t])
  /-- A row of values and the comma behind it. -/
  | row {ms : List Piece} : BehindRow ms → ListToken ms

/-- The token at the end of `ms` is found from behind the spaces and comments in `gap`: it is a word without a comment
behind it, or the last comment is taken for one. -/
inductive FoundBehind (ms gap : List Piece) : Prop where
  | word : (textOf ms).getLast?.any isName = true → (∀ p ∈ gap, p.isCode = true) → FoundBehind ms gap
  | comment {gs : List Piece} {t s : Text} : gap = gs ++ .region .comment t :: s.map .code → opensList t = true →
      FoundBehind ms gap

theorem BehindRow.getLast? {ms : List Piece} (h : BehindRow ms) : (textOf ms).getLast? = some ',' := by
  have hrow : ∀ {qs}, IsRow qs → (textOf qs).getLast? = some ',' := by
    rintro _ ⟨gap, row, gap', rfl, -, -⟩
    have hlast : gap ++ .code '(' :: (row ++ .code ')' :: (gap' ++ [.code ','])) =
        (gap ++ .code '(' :: (row ++ .code ')' :: gap')) ++ [.code ','] := by
      simp only [List.append_assoc, List.cons_append]
    rw [hlast, textOf_append]
    exact List.getLast?_concat ..
  cases h with
  | first ms _ _ hqs =>
    rw [textOf_append, textOf_append, List.getLast?_append, List.getLast?_append, hrow hqs, Option.some_or, Option.some_or]
  | next _ hqs => rw [textOf_append, List.getLast?_append, hrow hqs, Option.some_or]

/-- What is found directly behind a token. -/
theorem opensList_token {T : Text} {ms rs : List Piece} (hp : pieces T = ms ++ rs) (h : ListToken ms) :
    opensList (textOf ms) = (textOf ms).getLast?.any isName := by
  have hnone : ∀ {c}, (textOf ms).getLast? = some c → isSpace c = false → isWord c = false →
      opensList (textOf ms) = (textOf ms).getLast?.any isName := by
    intro c hc hs hw
    rw [opensList, lastWord_eq_nil hc hs hw, hc, Option.any_some, isName_of_isWord hw]
    rfl
  cases h with
  | name ms hne hv hs hx hlist =>
    rw [textOf_append, textOf_map_code, opensList, lastWord_name hne hv hs hx, List.getLast?_append,
      List.getLast?_eq_some_getLast hne, Option.some_or, Option.any_some, isName, hv _ (List.getLast_mem hne)]
    rw [List.getLast?_eq_some_getLast hne, Option.any_some] at hs
    rcases hlist with hlist | hlist <;> simp [hs, hne, hlist]
  | @quoted ms t ht =>
    have hin : Piece.region .literal t ∈ pieces T := by rw [hp]; simp
    obtain ⟨q, hhead, hlast, -⟩ := getLast?_of_literal hin
    obtain rfl : q = '\x60' := Option.some.inj (hhead.symm.trans ht)
    exact hnone (c := '\x60') (by simp [Piece.text, hlast]) rfl rfl
  | row hrow => exact hnone hrow.getLast? rfl rfl

/-- Spaces and comments end in spaces, up to the last comment. -/
theorem trivia_cases {gap : List Piece} (h : ∀ p ∈ gap, isTrivia p = true) :
    (∃ s : Text, gap = s.map .code ∧ ∀ c ∈ s, isSpace c = true) ∨
      ∃ (gs : List Piece) (t s : Text), gap = gs ++ .region .comment t :: s.map .code ∧ ∀ c ∈ s, isSpace c = true := by
  induction gap with
  | nil => exact Or.inl ⟨[], rfl, by simp⟩
  | cons p gap ih =>
    rcases ih fun q hq => h q (List.mem_cons_of_mem _ hq) with ⟨s, rfl, hs⟩ | ⟨gs, t, s, rfl, hs⟩
    · have hp := h p List.mem_cons_self
      cases p with
      | code c => exact Or.inl ⟨c :: s, rfl, List.forall_mem_cons.mpr ⟨hp, hs⟩⟩
      | region kind t =>
        have hk : kind = .comment := by simpa [isTrivia] using hp
        exact Or.inr ⟨[], t, s, by rw [hk]; rfl, hs⟩
    · exact Or.inr ⟨p :: gs, t, s, rfl, hs⟩

/-- The last comment in front of a parenthesis is read for a word. -/
theorem opensList_comment {T : Text} {ms gs rs : List Piece} {t s : Text}
    (hp : pieces T = (ms ++ (gs ++ .region .comment t :: s.map .code)) ++ rs) (hs : ∀ c ∈ s, isSpace c = true) :
    opensList (textOf (ms ++ (gs ++ .region .comment t :: s.map .code))) = opensList t := by
  have hin : Piece.region .comment t ∈ pieces T := by rw [hp]; simp
  obtain ⟨c, rest, n, rfl, hr⟩ := region_cons hin
  obtain ⟨hs', hw⟩ : isSpace c = false ∧ isWord c = false := by
    rcases regionTail?_cases hr with ⟨hk, -⟩ | ⟨-, hcom⟩
    · cases hk
    · rcases mark_of_commentTail? hcom with rfl | rfl | rfl <;> exact ⟨rfl, rfl⟩
  have htext : textOf (ms ++ (gs ++ .region .comment (c :: rest.take n) :: s.map .code)) =
      (textOf (ms ++ gs) ++ c :: rest.take n) ++ s := by
    simp only [textOf_append, textOf_cons, textOf_map_code, Piece.text, List.append_assoc]
  rw [opensList, opensList, htext, lastWord_spaces _ hs, lastWord_append _ rfl hs' hw]

/-- **Which lists are found.** -/
theorem opensList_iff {T : Text} {ms gap rs : List Piece} (hp : pieces T = (ms ++ gap) ++ rs) (h : ListToken ms)
    (hgap : ∀ p ∈ gap, isTrivia p = true) : opensList (textOf (ms ++ gap)) = true ↔ FoundBehind ms gap := by
  have hcomment : ∀ {gs t} {s : Text}, gap = gs ++ .region .comment t :: s.map .code →
      opensList (textOf (ms ++ gap)) = opensList t := by
    rintro gs t s rfl
    refine opensList_comment hp fun c hc => ?_
    exact hgap (.code c) (by simp [hc])
  rcases trivia_cases hgap with ⟨s, rfl, hs⟩ | ⟨gs, t, s, hcut, -⟩
  · have htoken : opensList (textOf (ms ++ s.map .code)) = (textOf ms).getLast?.any isName := by
      rw [opensList, textOf_append, textOf_map_code, lastWord_spaces _ hs]
      exact opensList_token (hp.trans (List.append_assoc ..)) h
    rw [htoken]
    constructor
    · intro hname
      exact .word hname (by simp [Piece.isCode])
    · rintro (⟨hname, -⟩ | ⟨hcut, hlist⟩)
      · exact hname
      · rwa [← htoken, hcomment hcut]
  · rw [hcomment hcut]
    constructor
    · exact .comment hcut
    · rintro (⟨-, hcode⟩ | ⟨hcut', hlist⟩)
      · cases hcode (.region .comment t) (by rw [hcut]; simp)
      · rwa [← hcomment hcut, hcomment hcut']

/-! ## The parenthesis of an expression -/

/-- The parenthesis from `opener` to `close` stays outside of the expression. -/
def Keeps (e : Expression) (opener close : Nat) : Prop := opener < e.start ∧ e.stop ≤ close

theorem length_takeWhile_iff {t u : Text} {c : Char} (hc : isBlank c = false) :
    ((t ++ c :: u).takeWhile isBlank).length = t.length ↔ ∀ d ∈ t, isBlank d = true := by
  constructor
  · intro h d hd
    have hprefix := List.prefix_iff_eq_take.mp (List.takeWhile_prefix (l := t ++ c :: u) isBlank)
    rw [h, List.take_left] at hprefix
    rw [← hprefix] at hd
    exact List.all_eq_true.mp List.all_takeWhile d hd
  · intro h
    rw [takeWhile_whole (r := c :: u) h hc]

/-- The end of a group that is filled. -/
theorem groupEnd?_of_fills {T : Text} {kw start stop opener close : Nat} (hf : Fills T kw start stop opener close) :
    groupEnd? T opener start stop = some close ↔
      (∀ c ∈ Text.slice T stop close, isBlank c = true) ∧ opensList (T.take opener) = false := by
  obtain ⟨-, d, -, -, hat, -, hd⟩ := findClosing_split hf.parenthesis rfl hf.closed
  obtain rfl := eq_of_openerOf? hd
  obtain ⟨hlt, hget⟩ := List.getElem?_eq_some_iff.mp hat
  have hle : stop ≤ close := by have := hf.behind; omega
  have hbehind : T.drop stop = Text.slice T stop close ++ ')' :: T.drop (close + 1) := by
    rw [← hget, ← List.drop_eq_getElem_cons hlt, Text.slice, List.drop_take]
    conv => lhs; rw [← List.take_append_drop (close - stop) (T.drop stop), List.drop_drop, Nat.add_sub_cancel' hle]
  have hlen : (Text.slice T stop close).length = close - stop := by
    rw [Text.slice, List.length_drop, List.length_take]
    omega
  rw [← length_takeWhile_iff (u := T.drop (close + 1)) (c := ')') (by decide), ← hbehind, hlen, groupEnd?]
  simp only [hf.parenthesis, hf.front, hf.closed, true_and, Option.some.injEq, Bool.not_eq_true']
  constructor
  · intro h
    split at h
    · next hcond => exact ⟨by omega, hcond.2⟩
    · cases h
  · rintro ⟨hblanks, hlist⟩
    have hclose : stop + ((T.drop stop).takeWhile isBlank).length = close := by omega
    rw [hclose, if_pos ⟨rfl, hlist⟩]

/-- The span of an expression whose base stands behind a bracket. -/
theorem span_of_locate {T : Text} {kw : Nat} {e : Expression} (h : locate T kw = .ok e) :
    ∃ sign signAt base stop, readSign T kw = .ok (sign, signAt) ∧
      readBase T signAt (kw + keyword.length) = .ok base ∧ kw ≤ stop ∧ innerSpan T kw = some (base.start, stop) ∧
      ∀ opener, base.group = some opener →
        (∀ close, groupEnd? T opener base.start stop = some close → e.start = opener ∧ e.stop = close + 1) ∧
          (groupEnd? T opener base.start stop = none → e.start = base.start ∧ e.stop = stop) := by
  obtain ⟨sign, signAt, base, n, hsign, hbase, hterms, -, hplace⟩ := locate_ok h
  refine ⟨sign, signAt, base, kw + n, hsign, hbase, Nat.le_add_right .., ?_, fun opener hgroup => ⟨?_, ?_⟩⟩
  · simp only [innerSpan, hsign, hbase, hterms]
  · intro close hend
    rcases hplace with ⟨opener', close', hgroup', hend', hstart, hstop⟩ | ⟨hnone, -⟩
    · obtain rfl := Option.some.inj (hgroup.symm.trans hgroup')
      obtain rfl := Option.some.inj (hend.symm.trans hend')
      exact ⟨hstart, hstop⟩
    · rw [hnone opener hgroup] at hend
      cases hend
  · intro hend
    rcases hplace with ⟨opener', close', hgroup', hend', -⟩ | ⟨-, hstart, hstop⟩
    · obtain rfl := Option.some.inj (hgroup.symm.trans hgroup')
      rw [hend] at hend'
      cases hend'
    · exact ⟨hstart, hstop⟩

/-- **Which lists keep their parentheses.** The parenthesis behind a list token that an expression fills stays outside
exactly if the token is found, or a comment stands in front of the closing parenthesis. Otherwise the expression takes
it along. -/
theorem locate_keeps_iff {T : Text} {kw start stop opener close : Nat} {e : Expression} {ms gap rest : List Piece}
    (h : locate T kw = .ok e) (hf : Fills T kw start stop opener close)
    (hp : pieces T = (ms ++ gap) ++ .code '(' :: rest) (hl : (textOf (ms ++ gap)).length = opener)
    (hgap : ∀ p ∈ gap, isTrivia p = true) (htoken : ListToken ms) :
    (Keeps e opener close ↔ FoundBehind ms gap ∨ ∃ c ∈ Text.slice T stop close, isBlank c = false) ∧
      (¬ Keeps e opener close → e.start = opener ∧ e.stop = close + 1) := by
  obtain ⟨sign, signAt, base, stop', hsign, hbase, hkw, hspan, hcases⟩ := span_of_locate h
  obtain ⟨rfl, rfl⟩ : base.start = start ∧ stop' = stop := by
    simpa using hspan.symm.trans hf.span
  have hgroup := group_of_fills hp hl hf hsign hbase rfl hkw
  obtain ⟨htaken, hkept⟩ := hcases opener hgroup
  have hend := groupEnd?_of_fills hf
  have hfound := opensList_iff hp htoken hgap
  rw [take_of_pieces hp hl] at hend
  have hfront := hf.front
  have hbehind := hf.behind
  cases hgroupEnd : groupEnd? T opener base.start stop' with
  | none =>
    obtain ⟨hstart, hstop⟩ := hkept hgroupEnd
    have hkeeps : Keeps e opener close := ⟨by omega, by omega⟩
    refine ⟨iff_of_true hkeeps (Classical.byContradiction fun hno => ?_), fun hno => absurd hkeeps hno⟩
    simp only [not_or, not_exists, not_and, Bool.not_eq_false] at hno
    rw [hend.mpr ⟨hno.2, Bool.eq_false_iff.mpr (mt hfound.mp hno.1)⟩] at hgroupEnd
    cases hgroupEnd
  | some close' =>
    obtain rfl : close' = close := Option.some.inj ((closing_of_groupEnd? hgroupEnd).1.symm.trans hf.closed)
    obtain ⟨hblanks, hlist⟩ := hend.mp hgroupEnd
    obtain ⟨hstart, hstop⟩ := htaken close' hgroupEnd
    refine ⟨iff_of_false (fun hkeeps => ?_) ?_, fun _ => ⟨hstart, hstop⟩⟩
    · have := hkeeps.1
      omega
    · rintro (hin | ⟨c, hc, hno⟩)
      · rw [hfound.mpr hin] at hlist
        cases hlist
      · rw [hblanks c hc] at hno
        cases hno

/-- The argument of a quoted function loses its parentheses. -/
theorem locate_keeps_quoted :
    let T := "select \x60f\x60(t + interval 1 second)".toList
    let e : Expression := ⟨"t".toList, [⟨.plus, "1".toList, .second⟩], 10, 33⟩
    locate T 15 = .ok e ∧ Fills T 15 11 32 10 32 ∧ ListToken (pieces (T.take 10)) ∧
      pieces T = (pieces (T.take 10) ++ []) ++ .code '(' :: pieces (T.drop 11) ∧ ¬ Keeps e 10 32 ∧
      T.take e.start ++ e.render ++ T.drop e.stop =
        "select \x60f\x60datetime(t, '+' || 1 || ' seconds')".toList := by
  intro T e
  have hlocate : locate T 15 = .ok e := eq_ok_of_toOption (by decide +kernel)
  have hfills : Fills T 15 11 32 10 32 :=
    ⟨by decide +kernel, by decide +kernel, by decide +kernel, by decide +kernel, by decide +kernel⟩
  have hfront : pieces (T.take 10) = pieces (T.take 7) ++ [.region .literal "\x60f\x60".toList] := by decide +kernel
  have htoken : ListToken (pieces (T.take 10)) := by
    rw [hfront]
    exact .quoted _ rfl
  have hcut : pieces T = (pieces (T.take 10) ++ []) ++ .code '(' :: pieces (T.drop 11) := by decide +kernel
  have hlast : (textOf (pieces (T.take 10))).getLast?.any isName = false := by decide +kernel
  have hbehind : Text.slice T 32 32 = [] := by decide +kernel
  obtain ⟨hiff, -⟩ := locate_keeps_iff hlocate hfills hcut (by decide +kernel) (by simp) htoken
  refine ⟨hlocate, hfills, htoken, hcut, fun hkeeps => ?_, by decide +kernel⟩
  rcases hiff.mp hkeeps with (⟨hname, -⟩ | ⟨hgap, -⟩) | ⟨c, hc, -⟩
  · rw [hlast] at hname
    cases hname
  · simp at hgap
  · rw [hbehind] at hc
    cases hc

end SqlDialect.Interval
