import SqlDialect.Proofs.Interval.Terms

/-!
# The pieces of a base

The base of an interval expression is found by searches in both directions. All of them stop between two pieces of the
text, so the base is made of whole pieces, and so is what stands between the base and the keyword: spaces, comments and
the sign. The sign may be the last character of a line comment; then the whole comment stands there.

* `Interval.readSign_pieces`: what stands in front of the keyword from the sign on.
* `Interval.readBase_split`: the base, what is kept before it and what is dropped behind it.
-/

namespace SqlDialect.Interval

/-! ## Regions and their characters -/

/-- What a region starts with. -/
theorem region_cons {text t : Text} {kind : RegionKind} (h : Piece.region kind t ∈ pieces text) :
    ∃ c rest n, t = c :: rest.take n ∧ regionTail? c rest = some (kind, n) := by
  fun_induction pieces text with
  | case1 => cases h
  | case2 c rest k n hr ih =>
    rcases List.mem_cons.mp h with h | h
    · cases h
      exact ⟨c, rest, n, rfl, hr⟩
    · exact ih h
  | case3 c rest hr ih =>
    rcases List.mem_cons.mp h with h | h
    · cases h
    · exact ih h

/-- No region starts with a space. -/
theorem head_of_region {text t : Text} {kind : RegionKind} (h : Piece.region kind t ∈ pieces text) :
    ∃ c, t.head? = some c ∧ isSpace c = false := by
  obtain ⟨c, rest, n, rfl, hr⟩ := region_cons h
  refine ⟨c, rfl, ?_⟩
  rw [Bool.eq_false_iff]
  intro hs
  rw [regionTail?_of_isSpace hs] at hr
  cases hr

/-- A literal ends with a quote. -/
theorem getLast?_of_literal {text t : Text} (h : Piece.region .literal t ∈ pieces text) :
    ∃ q, t.head? = some q ∧ t.getLast? = some q ∧ isQuote q = true := by
  obtain ⟨c, rest, n, rfl, hr⟩ := region_cons h
  rcases regionTail?_cases hr with ⟨-, hl⟩ | ⟨hk, -⟩
  · obtain ⟨hq, hlast⟩ := getLast?_of_literalTail? hl
    exact ⟨c, rfl, by rw [List.getLast?_cons, hlast]; rfl, hq⟩
  · cases hk

/-- The piece to which a marked character belongs. -/
theorem marksOf_split {ps : List Piece} {xs ys : List Mark} {c : Char} (h : marksOf ps = xs ++ ⟨c, true⟩ :: ys) :
    ∃ ms ns : List Piece, ps = ms ++ .code c :: ns ∧ (textOf ms).length = xs.length := by
  induction ps generalizing xs with
  | nil => simp [marksOf] at h
  | cons p ps ih =>
    cases p with
    | code d =>
      cases xs with
      | nil =>
        simp only [marksOf, List.nil_append, List.cons.injEq, Mark.mk.injEq, and_true] at h
        exact ⟨[], ps, by rw [h.1]; rfl, rfl⟩
      | cons x xs =>
        simp only [marksOf, List.cons_append, List.cons.injEq] at h
        obtain ⟨ms, ns, rfl, hl⟩ := ih h.2
        exact ⟨.code d :: ms, ns, rfl, by simp [Piece.text, hl]⟩
    | region kind t =>
      rw [marksOf] at h
      rcases append_eq_append_cons h with ⟨zs, rfl, hz⟩ | ⟨zs, hz, -⟩
      · obtain ⟨ms, ns, rfl, hl⟩ := ih hz
        exact ⟨.region kind t :: ms, ns, rfl, by simp [Piece.text, hl]⟩
      · have hmem : (⟨c, true⟩ : Mark) ∈ t.map (⟨·, false⟩ : Char → Mark) := by
          rw [hz]
          simp
        obtain ⟨d, -, hd⟩ := List.mem_map.mp hmem
        cases hd

/-- No region stands before the place from which on they are listed. -/
theorem regionAt?_before {ps : List Piece} {start i : Nat} (h : i < start) :
    regionAt? (regionsFrom start ps) i = none := by
  induction ps generalizing start with
  | nil => rfl
  | cons p ps ih =>
    cases p with
    | code c => exact ih (Nat.lt_succ_of_lt h)
    | region kind t =>
      rw [regionsFrom, regionAt?, List.find?_cons_of_neg]
      · exact ih (Nat.lt_of_lt_of_le h (Nat.le_add_right _ _))
      · simp only [Region.covers, Bool.and_eq_true, decide_eq_true_eq]
        omega

/-- The region at a position behind some pieces. -/
theorem regionAt?_append {ms ns : List Piece} {start i : Nat} (h : start + (textOf ms).length ≤ i) :
    regionAt? (regionsFrom start (ms ++ ns)) i = regionAt? (regionsFrom (start + (textOf ms).length) ns) i := by
  induction ms generalizing start with
  | nil => rfl
  | cons m ms ih =>
    rw [textOf_cons, List.length_append, ← Nat.add_assoc] at h ⊢
    cases m with
    | code c => exact ih h
    | region kind t =>
      rw [List.cons_append, regionsFrom, regionAt?, List.find?_cons_of_neg]
      · exact ih h
      · simp only [Region.covers, Bool.and_eq_true, decide_eq_true_eq, Piece.text] at h ⊢
        omega

/-- The region that a piece is, if it stands at position `start`. -/
def regionOf? (start : Nat) : Piece → Option Region
  | .code _ => none
  | .region kind t => some ⟨kind, start, start + t.length⟩

/-- The region at a position within a piece. -/
theorem regionAt?_piece {T : Text} {ms ns : List Piece} {p : Piece} {i : Nat} (hp : pieces T = ms ++ p :: ns)
    (h₁ : (textOf ms).length ≤ i) (h₂ : i < (textOf ms).length + p.text.length) :
    regionAt? (regions T) i = regionOf? (textOf ms).length p := by
  rw [regions, hp, regionAt?_append (by omega), Nat.zero_add]
  cases p with
  | code c =>
    show regionAt? (regionsFrom ((textOf ms).length + 1) ns) i = none
    exact regionAt?_before h₂
  | region kind t =>
    simp only [Piece.text] at h₂
    rw [regionsFrom, regionAt?, List.find?_cons_of_pos]
    · rfl
    · simp only [Region.covers, Bool.and_eq_true, decide_eq_true_eq]
      omega

/-! ## The boundary on the left -/

theorem isWord_of_isOpener {c : Char} (h : isOpener c = true) : isWord c = false := by
  rw [Bool.eq_false_iff]
  intro hw
  rw [(neutral_of_class (by decide) hw).2.1] at h
  cases h

theorem isWord_of_isSeparator {c : Char} (h : isSeparator c = true) : isWord c = false := by
  simp only [isSeparator, Bool.or_eq_true, decide_eq_true_eq] at h
  rcases h with (((rfl | rfl) | rfl) | rfl) | rfl <;> decide

theorem ne_percent_of_isOpener {c : Char} (h : isOpener c = true) : c ≠ '%' := by
  rintro rfl
  cases h

theorem ne_percent_of_isSeparator {c : Char} (h : isSeparator c = true) : c ≠ '%' := by
  rintro rfl
  cases h

/-- The boundary of an operand is the start of the text or stands behind a character of code that ends words and belongs
to no marker. -/
theorem boundaryBefore_split {before : List Mark} {b : Boundary} (h : boundaryBefore before = .ok b) :
    b = .plain 0 ∨
      ∃ xs c ys, before = ys ++ ⟨c, true⟩ :: xs ∧ b.start = xs.length + 1 ∧ isWord c = false ∧ c ≠ '%' := by
  fun_induction boundaryBefore before with
  | case1 => exact Or.inl (Except.ok.inj h).symm
  | case2 c before ih | case8 c before _ _ _ _ ih =>
    rcases ih h with rfl | ⟨xs, d, ys, rfl, hs, hd⟩
    · exact Or.inl rfl
    · exact Or.inr ⟨xs, d, _ :: ys, rfl, hs, hd⟩
  | case3 | case4 => cases h
  | case5 c before _ _ opener ho ih =>
    rcases ih h with rfl | ⟨xs, d, ys, he, hs, hd⟩
    · exact Or.inl rfl
    · refine Or.inr ⟨xs, d, ⟨c, true⟩ :: (before.take (before.length - opener) ++ ys), ?_, hs, hd⟩
      rw [List.cons_append, List.append_assoc, ← he, List.take_append_drop]
  | case6 c before _ _ ho =>
    cases h
    exact Or.inr ⟨before, c, [], rfl, rfl, isWord_of_isOpener ho, ne_percent_of_isOpener ho⟩
  | case7 c before _ _ _ hsep =>
    cases h
    exact Or.inr ⟨before, c, [], rfl, rfl, isWord_of_isSeparator hsep, ne_percent_of_isSeparator hsep⟩

/-- The boundary of an operand among the pieces of the text. -/
theorem boundaryBefore_pieces {T : Text} {i : Nat} {b : Boundary} (h : boundaryBefore (marksBefore T i) = .ok b) :
    b = .plain 0 ∨ ∃ (ms : List Piece) (c : Char), pieces T = ms ++ .code c :: pieces (T.drop b.start) ∧
      (textOf ms).length + 1 = b.start ∧ isWord c = false ∧ c ≠ '%' := by
  rcases boundaryBefore_split h with rfl | ⟨xs, c, ys, hsplit, hs, hc⟩
  · exact Or.inl rfl
  · rw [marksBefore, ← List.reverse_inj, List.reverse_reverse, List.reverse_append, List.reverse_cons] at hsplit
    have hmarks : marks T = xs.reverse ++ ⟨c, true⟩ :: (ys.reverse ++ (marks T).drop i) := by
      conv => lhs; rw [← List.take_append_drop i (marks T), hsplit]
      simp
    obtain ⟨ms, ns, hp, hl⟩ := marksOf_split hmarks
    have hlen : (textOf ms).length + 1 = b.start := by rw [hs, hl, List.length_reverse]
    have hT : T = (textOf ms ++ [c]) ++ textOf ns := by
      rw [← textOf_pieces T, hp, textOf_append, textOf_cons, List.append_assoc]
      rfl
    have hdrop : T.drop b.start = textOf ns := by
      rw [hT, ← hlen, show (textOf ms).length + 1 = (textOf ms ++ [c]).length by simp, List.drop_left]
    have hcut : pieces T = (ms ++ [.code c]) ++ ns := by rw [hp]; simp
    exact Or.inr ⟨ms, c, by rw [hdrop, pieces_textOf hcut, hp], hlen, hc⟩

/-! ## Behind the stop words -/

/-- The text ends with a stop word. -/
def EndsInStopWord (text : Text) : Prop :=
  ∃ x v w, text = x ++ v ∧ w ∈ stopWords ∧ Text.lower v = Text.lower w ∧ x.getLast?.any isWord = false

/-- A base may start at position `i`: it stands between two pieces, and at the start of the base neither a word goes on
nor a marker. -/
def StartsAt (T : Text) (i : Nat) : Prop :=
  ∃ FA : List Piece, pieces T = FA ++ pieces (T.drop i) ∧ (textOf FA).length = i ∧
    ((textOf FA).getLast?.any isWord = false ∨ EndsInStopWord (textOf FA) ∧ (T.drop i).head?.any isWord = false) ∧
    (textOf FA).getLast? ≠ some '%'

/-- The boundary on the left is a place where a base may start. -/
theorem startsAt_boundary {T : Text} {i : Nat} {b : Boundary} (h : boundaryBefore (marksBefore T i) = .ok b) :
    StartsAt T b.start := by
  rcases boundaryBefore_pieces h with rfl | ⟨ms, c, hp, hl, hc, hmark⟩
  · exact ⟨[], by simp [Boundary.start], rfl, Or.inl rfl, by simp⟩
  · exact ⟨ms ++ [.code c], by rw [hp]; simp, by simpa [Piece.text] using hl, Or.inl (by simp [Piece.text, hc]),
      by simp [Piece.text, hmark]⟩

/-- No literal covers the position. -/
def NotInLiteral (T : Text) (i : Nat) : Prop :=
  ∀ ms t ns, pieces T = ms ++ .region .literal t :: ns → ¬ ((textOf ms).length ≤ i ∧ i < (textOf ms).length + t.length)

theorem stopWords_word : ∀ w ∈ stopWords, w ≠ [] ∧ ∀ c ∈ w, isWord c = true := by rw [stopWords]; decide

/-- The stop word at which a text starts. -/
theorem pieces_stopWord {before : Option Char} {text w : Text} (hw : w ∈ stopWords)
    (h : startsKeyword w before text = true) :
    ∃ v u, text = v ++ u ∧ v.length = w.length ∧ Text.lower v = Text.lower w ∧ pieces text = v.map .code ++ pieces u ∧
      before.any isWord = false ∧ u.head?.any isWord = false := by
  obtain ⟨hne, hword⟩ := stopWords_word w hw
  have hb := before_of_startsKeyword hne hword h
  have hlast : w.getLast?.any isWord = true := by
    rw [List.getLast?_eq_some_getLast hne]
    exact hword _ (List.getLast_mem hne)
  simp only [startsKeyword, Bool.and_eq_true, Bool.not_eq_true'] at h
  obtain ⟨v, u, rfl, hv⟩ := starts_iff.mp h.1.1
  have hu := h.2
  rw [hlast, Bool.true_and, ← length_eq_of_lower_eq hv, List.drop_left] at hu
  exact ⟨v, u, rfl, length_eq_of_lower_eq hv, hv, reads_word (isWord_of_lower_eq hv hword) u, hb, hu⟩

/-- A stop word that starts with the character `c` and goes on for `n` characters behind it. -/
structure StopWordAt (before : Option Char) (c : Char) (rest : Text) (n : Nat) (w : Text) : Prop where
  mem : w ∈ stopWords
  starts : startsKeyword w before (c :: rest) = true
  length : w.length = n + 1
  le : n ≤ rest.length
  lower : Text.lower (c :: rest.take n) = Text.lower w
  pieces : pieces (c :: rest) = (c :: rest.take n).map .code ++ SqlDialect.pieces (rest.drop n)
  front : before.any isWord = false
  behind : (rest.drop n).head?.any isWord = false

theorem StopWordAt.isWord {before : Option Char} {c : Char} {rest : Text} {n : Nat} {w : Text}
    (h : StopWordAt before c rest n w) : ∀ d ∈ c :: rest.take n, isWord d = true :=
  isWord_of_lower_eq h.lower (stopWords_word w h.mem).2

theorem StopWordAt.length_take {before : Option Char} {c : Char} {rest : Text} {n : Nat} {w : Text}
    (h : StopWordAt before c rest n w) : (c :: rest.take n).length = n + 1 := by
  rw [List.length_cons, List.length_take_of_le h.le]

theorem stopWordAt {before : Option Char} {c : Char} {rest w : Text} (hmem : w ∈ stopWords)
    (hs : startsKeyword w before (c :: rest) = true) : StopWordAt before c rest (w.length - 1) w := by
  obtain ⟨v, u, hvu, hlen, hv, hpv, hfront, hbehind⟩ := pieces_stopWord hmem hs
  obtain ⟨d, v, rfl⟩ := List.exists_cons_of_ne_nil fun e : v = [] =>
    (stopWords_word w hmem).1 (List.length_eq_zero_iff.mp (by rw [← hlen, e, List.length_nil]))
  rw [List.cons_append, List.cons.injEq] at hvu
  obtain ⟨rfl, rfl⟩ := hvu
  have hn : w.length - 1 = v.length := by rw [← hlen, List.length_cons, Nat.add_sub_cancel]
  rw [hn]
  exact {
    mem := hmem
    starts := hs
    length := hlen.symm
    le := by rw [List.length_append]; exact Nat.le_add_right _ _
    lower := by rwa [List.take_left]
    pieces := by rwa [List.take_left, List.drop_left]
    front := hfront
    behind := by rwa [List.drop_left] }

/-- The stop word that is found at a character. -/
theorem stopWordAt_of_find? {before : Option Char} {c : Char} {rest w : Text}
    (h : stopWords.find? (startsKeyword · before (c :: rest)) = some w) :
    StopWordAt before c rest (w.length - 1) w :=
  stopWordAt (List.mem_of_find?_eq_some h) (@List.find?_some _ (startsKeyword · before (c :: rest)) w _ h)

theorem getLast?_textOf_append {qs : List Piece} {t : Text} (h : textOf qs = t) (ht : t ≠ []) (ps : List Piece) :
    t.getLast? = (textOf (ps ++ qs)).getLast? := by
  rw [textOf_append, h, List.getLast?_append, List.getLast?_eq_some_getLast ht]
  rfl

/-- The cut behind the last stop word is a place where a base may start. -/
theorem startsAt_stopWordCut {T : Text} {limit : Nat} (hlit : NotInLiteral T limit) {before : Option Char}
    {i start : Nat} {rest : Text} {FX : List Piece} (hp : pieces T = FX ++ pieces rest) (hi : (textOf FX).length = i)
    (hb : before = (textOf FX).getLast?) (hs : StartsAt T start) :
    StartsAt T (stopWordCut limit before i start rest) := by
  fun_induction stopWordCut limit before i start rest generalizing FX with
  | case1 | case2 => exact hs
  | case3 before i start c rest _ hc n hn ih =>
    have hoff := (Option.filter_eq_some_iff.mp hn).1
    obtain ⟨qs, hq, ht, -⟩ := pieces_closing hc hoff
    have hlt := closingOffset?_lt hoff
    refine ih (by rw [hp, hq, List.append_assoc]) ?_ (getLast?_textOf_append ht (by simp) FX) hs
    rw [textOf_append, List.length_append, hi, ht]
    simp only [List.length_cons, List.length_take] at hlt ⊢
    omega
  | case4 before i start c rest hlimit hc hn ih =>
    have hcode : regionTail? c rest = none := by
      rcases regionTail?_of_delimiter hc rest with hr | ⟨m, hr, hoff⟩
      · exact hr
      · -- the literal would reach over the limit
        rw [hoff] at hn
        have hge : ¬ i + m < limit := fun hlt => by simp [Option.filter, hlt] at hn
        have hle := lt_of_regionTail? hr
        have := hlit FX (c :: rest.take m) (pieces (rest.drop m)) (by rw [hp, pieces_region hr])
        simp only [List.length_cons, List.length_take] at this
        omega
    have hcut : pieces T = (FX ++ [.code c]) ++ pieces rest := by rw [hp, pieces_code hcode]; simp
    exact ih hcut (by simp [Piece.text, hi]) (by simp [Piece.text]) hs
  | case5 before i start c rest _ _ n hn ih =>
    have hr := regionTail?_of_commentTail? hn
    have hle := lt_of_regionTail? hr
    have hcut : pieces T = (FX ++ [.region .comment (c :: rest.take n)]) ++ pieces (rest.drop n) := by
      rw [hp, pieces_region hr]
      simp
    refine ih hcut ?_ (getLast?_textOf_append (by simp [Piece.text]) (by simp) FX) hs
    simp only [textOf_append, textOf_cons, textOf_nil, List.append_nil, Piece.text, List.length_append,
      List.length_cons, List.length_take, Nat.min_eq_left hle, hi]
    omega
  | case6 before i start c rest _ _ _ w hw n =>
    rename_i ih
    have hat := stopWordAt_of_find? hw
    have hword : textOf ((c :: rest.take n).map .code) = c :: rest.take n := textOf_map_code _
    have hcut : pieces T = (FX ++ (c :: rest.take n).map .code) ++ pieces (rest.drop n) := by
      rw [hp, hat.pieces, List.append_assoc]
    have hend : (textOf (FX ++ (c :: rest.take n).map .code)).length = i + n + 1 := by
      rw [textOf_append, hword, List.length_append, hi, hat.length_take, Nat.add_assoc]
    have hdrop := drop_of_pieces hcut hend
    rw [textOf_pieces] at hdrop
    have htext : textOf (FX ++ (c :: rest.take n).map .code) = textOf FX ++ c :: rest.take n := by
      rw [textOf_append, hword]
    refine ih hcut hend (getLast?_textOf_append hword (by simp) FX)
      ⟨_, ?_, hend, Or.inr ⟨⟨_, _, w, htext, hat.mem, hat.lower, ?_⟩, ?_⟩, ?_⟩
    · rwa [hdrop]
    · rw [← hb]
      exact hat.front
    · rw [hdrop]
      exact hat.behind
    · -- a word does not end with a percent sign
      intro hlast
      rw [htext, List.getLast?_append, List.getLast?_eq_some_getLast (by simp), Option.some_or,
        Option.some.injEq] at hlast
      have := hat.isWord _ (hlast ▸ List.getLast_mem (List.cons_ne_nil c _))
      cases this
  | case7 before i start c rest _ hc hn _ ih =>
    simp only [Bool.or_eq_true, not_or, Bool.not_eq_true] at hc
    have hcut : pieces T = (FX ++ [.code c]) ++ pieces rest := by
      rw [hp, pieces_code (regionTail?_of_code hc.1 hn)]
      simp
    exact ih hcut (by simp [Piece.text, hi]) (by simp [Piece.text]) hs

theorem drop_lineLength (t : Text) : t.drop (lineLength t) = [] ∨ (t.drop (lineLength t)).head? = some '\n' := by
  induction t with
  | nil => exact Or.inl rfl
  | cons c t ih =>
    rw [lineLength]
    split
    · next hc => exact Or.inr (by rw [hc]; rfl)
    · rw [List.drop_succ_cons]
      exact ih

/-- A comment that is no block runs to the end of its line. -/
theorem drop_commentTail? {c : Char} {rest : Text} {n : Nat} (h : commentTail? c rest = some n) :
    (c :: rest.take n).getLast? = some '/' ∨ rest.drop n = [] ∨ (rest.drop n).head? = some '\n' := by
  unfold commentTail? at h
  split at h
  · cases h
    exact Or.inr (drop_lineLength _)
  · next body =>
    cases h
    rw [List.take_succ_cons, List.drop_succ_cons]
    rcases getLast?_of_blockLength body with hb | hb
    · exact Or.inr (Or.inl (by rw [hb, List.drop_length]))
    · refine Or.inl ?_
      rw [List.getLast?_cons, List.getLast?_cons, hb]
      rfl
  · next body =>
    split at h
    · cases h
      rw [List.drop_succ_cons]
      exact Or.inr (drop_lineLength _)
    · cases h
  · cases h

/-- Behind a comment among pieces a line ends, unless the comment is a block. -/
theorem behind_comment {T t r : Text} {ps : List Piece} (h : pieces T = ps ++ .region .comment t :: pieces r) :
    t.getLast? = some '/' ∨ r = [] ∨ r.head? = some '\n' := by
  have ht := pieces_textOf h
  rw [textOf_cons, textOf_pieces, Piece.text] at ht
  cases t with
  | nil =>
    have hm : Piece.region .comment [] ∈ pieces T := by rw [h]; simp
    exact absurd rfl (region_ne_nil hm)
  | cons c t =>
    rw [List.cons_append] at ht
    obtain ⟨n, hr, htake, hdrop⟩ := pieces_eq_region ht
    have hrest : (t ++ r).drop n = r := by
      have := congrArg textOf hdrop
      rwa [textOf_pieces, textOf_pieces] at this
    rcases regionTail?_cases hr with ⟨hk, -⟩ | ⟨-, hc⟩
    · cases hk
    · have hd := drop_commentTail? hc
      rwa [hrest, ← htake] at hd

/-- A blank or a sign is neither a quote nor part of a word or of a marker. -/
theorem blank_or_sign {c : Char} (h : isBlank c = true ∨ (Sign.ofChar? c).isSome = true) :
    isQuote c = false ∧ isDropped (.code c) = true ∧ isWord c = false ∧ c ≠ '%' := by
  rcases h with h | h
  · simp only [isBlank, Bool.or_eq_true, decide_eq_true_eq] at h
    rcases h with (((rfl | rfl) | rfl) | rfl) | rfl <;> decide
  · obtain ⟨sign, hs⟩ := Option.isSome_iff_exists.mp h
    rcases eq_of_ofChar? hs with rfl | rfl <;> decide

/-- Blanks and comments in front of something else do not end within a word or a marker. -/
theorem trivia_last {T r : Text} {ps ds : List Piece} (h : pieces T = ps ++ (ds ++ pieces r))
    (hds : ∀ p ∈ ds, isTrivia p = true) (hbl : ∀ c, .code c ∈ ds → isBlank c = true) (hr : r ≠ [])
    (hnext : r.head?.any isBlank = false) (hne : ds ≠ []) :
    ∃ c, (textOf ds).getLast? = some c ∧ isWord c = false ∧ c ≠ '%' := by
  obtain ⟨es, p, rfl⟩ : ∃ es p, ds = es ++ [p] := ⟨ds.dropLast, ds.getLast hne, (List.dropLast_concat_getLast hne).symm⟩
  cases p with
  | code c => exact ⟨c, by simp [Piece.text], (blank_or_sign (Or.inl (hbl c (by simp)))).2.2⟩
  | region kind t =>
    have hk : kind = .comment := by simpa [isTrivia] using hds (.region kind t) (by simp)
    subst hk
    have hcut : pieces T = (ps ++ es) ++ .region .comment t :: pieces r := by rw [h]; simp
    rcases behind_comment hcut with hslash | hnil | hline
    · exact ⟨'/', by simp [Piece.text, hslash], by decide, by decide⟩
    · exact absurd hnil hr
    · rw [hline] at hnext
      cases hnext

/-- The base starts behind the blanks and comments that follow a place where it may start. -/
theorem startsAt_trivia {T : Text} {i : Nat} (h : StartsAt T i) (hr : T.drop (i + triviaLength (T.drop i)) ≠ []) :
    StartsAt T (i + triviaLength (T.drop i)) ∧ (T.drop (i + triviaLength (T.drop i))).head?.any isBlank = false := by
  obtain ⟨FA, hp, hi, hend⟩ := h
  obtain ⟨ds, hd, hl, hds, hbl, -⟩ := pieces_trivia (T.drop i)
  have hhead := not_isBlank_behind_trivia (T.drop i)
  rw [List.drop_drop] at hd hhead
  have hcut : pieces T = FA ++ (ds ++ pieces (T.drop (i + triviaLength (T.drop i)))) := by rw [hp, hd]
  refine ⟨⟨FA ++ ds, by rw [hcut, List.append_assoc], by rw [textOf_append, List.length_append, hi, hl], ?_⟩, hhead⟩
  by_cases hne : ds = []
  · subst hne
    rw [← hl, textOf_nil, List.length_nil, Nat.add_zero, List.append_nil]
    exact hend
  · obtain ⟨c, hc, hw, hmark⟩ := trivia_last hcut hds hbl hr hhead hne
    rw [textOf_append, List.getLast?_append, hc, Option.some_or]
    exact ⟨Or.inl hw, fun he => hmark (Option.some.inj he)⟩

/-! ## In front of the keyword -/

theorem mem_textOf {ps : List Piece} {p : Piece} (h : p ∈ ps) {c : Char} (hc : c ∈ p.text) : c ∈ textOf ps :=
  List.mem_flatMap.mpr ⟨p, h, hc⟩

/-- The sign in front of the keyword, with blanks behind it. -/
theorem readSign_ok {T : Text} {kw signAt : Nat} {sign : Sign} (h : readSign T kw = .ok (sign, signAt)) :
    ∃ before blanks, (T.take kw).reverse.dropWhile isBlank = sign.char :: before.reverse ∧
      T.take kw = before ++ sign.char :: blanks ∧ before.length = signAt ∧ ∀ c ∈ blanks, isBlank c = true := by
  unfold readSign at h
  split at h
  · cases h
  · next c before hd =>
    split at h
    · cases h
    · next sign' hs =>
      simp only [Except.ok.injEq, Prod.mk.injEq] at h
      obtain ⟨rfl, rfl⟩ := h
      obtain rfl := char_of_ofChar? hs
      have hrev : (T.take kw).reverse = (T.take kw).reverse.takeWhile isBlank ++ sign'.char :: before := by
        rw [← hd, List.takeWhile_append_dropWhile]
      have htake := congrArg List.reverse hrev
      rw [List.reverse_reverse, List.reverse_append, List.reverse_cons, List.append_assoc, List.singleton_append]
        at htake
      refine ⟨before.reverse, _, by rw [List.reverse_reverse, hd], htake, List.length_reverse, fun c hc => ?_⟩
      rw [List.mem_reverse] at hc
      exact List.all_eq_true.mp List.all_takeWhile c hc

/-- What stands from the sign up to the keyword. -/
theorem readSign_split {T : Text} {kw signAt : Nat} {sign : Sign} (h : readSign T kw = .ok (sign, signAt)) :
    ∃ a b, T.take kw = a ++ b ∧ a.length = signAt ∧ b ≠ [] ∧
      ∀ c ∈ b, isBlank c = true ∨ (Sign.ofChar? c).isSome = true := by
  obtain ⟨before, blanks, -, htake, hlen, hblanks⟩ := readSign_ok h
  refine ⟨before, sign.char :: blanks, htake, hlen, List.cons_ne_nil _ _, fun c hc => ?_⟩
  rcases List.mem_cons.mp hc with rfl | hc
  · exact Or.inr (by rw [ofChar?_char]; rfl)
  · exact Or.inl (hblanks c hc)

/-- Code among blanks and signs, and comments. -/
theorem isDropped_of_chars {b : Text} {ps : List Piece} (hlit : ∀ t, .region .literal t ∉ ps)
    (hcode : ∀ c, .code c ∈ ps → c ∈ b) (h : ∀ c ∈ b, isBlank c = true ∨ (Sign.ofChar? c).isSome = true) :
    ∀ p ∈ ps, isDropped p = true := by
  intro p hp
  cases p with
  | code c => exact (blank_or_sign (h c (hcode c hp))).2.1
  | region kind t =>
    cases kind with
    | literal => exact absurd hp (hlit t)
    | comment => rfl

/-- Position `i` is `k`, or lies in the comment with which the pieces from `k` on start. -/
def AtOrInComment (k i : Nat) (ps : List Piece) : Prop :=
  k = i ∨ ∃ t ns, ps = .region .comment t :: ns ∧ k < i ∧ i < k + t.length

/-- A literal over the start of what ends in a sign and blanks would end among them. -/
theorem notInLiteral_of_sign {T a b : Text} {FS rs : List Piece} (hp : pieces T = FS ++ rs) (htext : textOf FS = a ++ b)
    (hne : b ≠ []) (hb : ∀ c ∈ b, isBlank c = true ∨ (Sign.ofChar? c).isSome = true) : NotInLiteral T a.length := by
  intro ms t ns hms ⟨h1, h2⟩
  have hin : Piece.region .literal t ∈ pieces T := by
    rw [hms]
    simp
  obtain ⟨q, -, hq, hquote⟩ := getLast?_of_literal hin
  have hqb : q ∉ b := fun hm => by
    rw [(blank_or_sign (hb q hm)).1] at hquote
    cases hquote
  have hpos := List.length_pos_iff.mpr hne
  have hlen := congrArg List.length htext
  rw [hms] at hp
  rcases append_eq_append_cons hp.symm with ⟨x, rfl, -⟩ | ⟨x, rfl, -⟩
  · simp only [textOf_append, List.length_append] at hlen h1
    omega
  · have hsplit : t.drop (a.length - (textOf ms).length) ++ textOf x = b := by
      have hdrop := congrArg (List.drop a.length) htext
      rw [List.drop_left, textOf_append, textOf_cons, Piece.text, List.drop_append, List.drop_eq_nil_of_le h1,
        List.nil_append, List.drop_append_of_le_length (by omega)] at hdrop
      exact hdrop
    refine hqb (hsplit ▸ List.mem_append_left _ (List.mem_of_getLast? ?_))
    rw [List.getLast?_drop, if_neg (by omega), hq]

/-- The pieces of what ends in a sign and blanks: from the sign on they are dropped, or it stands in a comment. -/
theorem dropped_of_sign {T a b : Text} {FS : List Piece} (hmem : ∀ p ∈ FS, p ∈ pieces T) (htext : textOf FS = a ++ b)
    (hne : b ≠ []) (hb : ∀ c ∈ b, isBlank c = true ∨ (Sign.ofChar? c).isSome = true) :
    ∃ FJ M : List Piece, FS = FJ ++ M ∧ M ≠ [] ∧ (∀ p ∈ M, isDropped p = true) ∧
      (textOf M).getLast?.any isWord = false ∧ AtOrInComment (textOf FJ).length a.length M := by
  have hlast : b.getLast?.any isWord = false := by
    rw [List.getLast?_eq_some_getLast hne]
    exact (blank_or_sign (hb _ (List.getLast_mem hne))).2.2.1
  have hliteral : ∀ {t : Text}, .region .literal t ∈ FS → ∃ q, t.head? = some q ∧ t.getLast? = some q ∧ q ∉ b := by
    intro t ht
    obtain ⟨q, h1, h2, hquote⟩ := getLast?_of_literal (hmem _ ht)
    refine ⟨q, h1, h2, fun hm => ?_⟩
    rw [(blank_or_sign (hb q hm)).1] at hquote
    cases hquote
  rcases textOf_split htext with ⟨ms, ns, rfl, hm, hn⟩ | ⟨ms, kind, t, u, ns, rfl, hm, hn, ht, hu⟩
  · refine ⟨ms, ns, rfl, ?_, ?_, by rwa [hn], Or.inl (by rw [hm])⟩
    · rintro rfl
      exact hne hn.symm
    · refine isDropped_of_chars (fun t ht => ?_) (fun c hc => ?_) hb
      · obtain ⟨q, hq, -, hqb⟩ := hliteral (List.mem_append_right _ ht)
        exact hqb (hn ▸ mem_textOf ht (List.mem_of_head? hq))
      · exact hn ▸ mem_textOf hc (List.mem_singleton_self c)
  · have hkind : kind = .comment := by
      cases kind with
      | comment => rfl
      | literal =>
        obtain ⟨q, -, hq, hqb⟩ := hliteral (List.mem_append_right _ List.mem_cons_self)
        rw [List.getLast?_append, List.getLast?_eq_some_getLast hu, Option.some_or, Option.some.injEq] at hq
        exact absurd (hn ▸ List.mem_append_left _ (hq ▸ List.getLast_mem hu)) hqb
    subst hkind
    have htpos := List.length_pos_iff.mpr ht
    have hupos := List.length_pos_iff.mpr hu
    refine ⟨ms, .region .comment (t ++ u) :: ns, rfl, by simp, ?_, ?_, Or.inr ⟨t ++ u, ns, rfl, ?_, ?_⟩⟩
    · refine isDropped_of_chars (fun t' ht' => ?_) (fun c hc => ?_) hb
      · rcases List.mem_cons.mp ht' with he | ht'
        · cases he
        · obtain ⟨q, hq, -, hqb⟩ := hliteral (List.mem_append_right _ (List.mem_cons_of_mem _ ht'))
          exact hqb (hn ▸ List.mem_append_right _ (mem_textOf ht' (List.mem_of_head? hq)))
      · rcases List.mem_cons.mp hc with he | hc
        · cases he
        · exact hn ▸ List.mem_append_right _ (mem_textOf hc (List.mem_singleton_self c))
    · have hend : textOf (.region .comment (t ++ u) :: ns) = t ++ b := by
        rw [textOf_cons, Piece.text, List.append_assoc, ← hn]
      rw [hend, List.getLast?_append, List.getLast?_eq_some_getLast hne]
      rw [List.getLast?_eq_some_getLast hne] at hlast
      exact hlast
    · rw [hm, List.length_append]
      omega
    · rw [hm, List.length_append, List.length_append]
      omega

/-- **In front of the keyword.** From the sign on, or from the comment on in which it stands, there are dropped pieces
up to the keyword. -/
theorem readSign_pieces {T : Text} {kw signAt : Nat} {sign : Sign} {FS : List Piece}
    (hp : pieces T = FS ++ pieces (T.drop kw)) (hl : (textOf FS).length = kw) (h : readSign T kw = .ok (sign, signAt)) :
    NotInLiteral T signAt ∧ ∃ FJ M : List Piece, FS = FJ ++ M ∧ M ≠ [] ∧ (∀ p ∈ M, isDropped p = true) ∧
      (textOf M).getLast?.any isWord = false ∧
      AtOrInComment (textOf FJ).length signAt M := by
  obtain ⟨a, b, hab, rfl, hne, hb⟩ := readSign_split h
  have htext : textOf FS = a ++ b := by rw [← hab, take_of_pieces hp hl]
  have hmem : ∀ p ∈ FS, p ∈ pieces T := fun p hm => by rw [hp]; exact List.mem_append_left _ hm
  exact ⟨notInLiteral_of_sign hp htext hne hb, dropped_of_sign hmem htext hne hb⟩

/-! ## The end of the base -/

/-- The end of a base does not stand behind the spaces at the end of its slice. -/
theorem trimTriviaEnd_le (T : Text) (rs : List Region) (start stop : Nat) :
    trimTriviaEnd T rs start stop ≤ start + (Text.trimEnd (Text.slice T start stop)).length := by
  fun_induction trimTriviaEnd T rs start stop with
  | case1 | case3 => exact Nat.le_refl _
  | case2 stop trimmed r hr hlt ih =>
    obtain ⟨hat, hfilter⟩ := Option.filter_eq_some_iff.mp hr
    have hcover := regionAt?_covers hat
    simp only [Bool.and_eq_true, decide_eq_true_eq] at hfilter
    obtain ⟨s, hs⟩ := Text.trimEnd_prefix (Text.slice T start r.start)
    have hlen := congrArg List.length hs
    simp only [Text.slice, List.length_append, List.length_drop, List.length_take] at hlen ih
    have htrimmed : trimmed = start + (Text.trimEnd (Text.slice T start stop)).length := rfl
    simp only [Text.slice] at htrimmed
    omega

/-- The last piece of a slice before the spaces at its end. A comment may take in some of the spaces. -/
theorem last_piece {T : Text} {FA Fx FR : List Piece} (hp : pieces T = FA ++ (Fx ++ FR))
    (hne : Text.trimEnd (textOf Fx) ≠ []) :
    ∃ (es : List Piece) (p : Piece) (s : Text), Fx = es ++ p :: s.map .code ∧ (∀ c ∈ s, isSpace c = true) ∧
      (textOf es).length < (Text.trimEnd (textOf Fx)).length ∧
      (Text.trimEnd (textOf Fx)).length ≤ (textOf es).length + p.text.length ∧
      ((∃ t, p = .region .comment t) ∨ Text.trimEnd (textOf Fx) = textOf (es ++ [p])) := by
  obtain ⟨s, hx, hs⟩ := Text.trimEnd_decomp (textOf Fx)
  have hread : Reads (Text.trimEnd (textOf Fx) ++ s) (textOf FR) Fx := hx ▸ Reads.of_pieces (pieces_textOf hp)
  have hmem : ∀ p ∈ Fx, p ∈ pieces T := fun p hm => by rw [hp]; simp [hm]
  rcases hread.split_spaces hs with ⟨ms, hms, hm⟩ | ⟨ms, kind, t, s₁, s₂, rfl, hs₁, ht, hm, hms, -⟩
  · have htext := hm.textOf_eq
    cases hlast : ms.getLast? with
    | none =>
      rw [List.getLast?_eq_none_iff.mp hlast] at htext
      exact absurd htext.symm hne
    | some p =>
      obtain ⟨es, rfl⟩ := List.getLast?_eq_some_iff.mp hlast
      have hpos : 0 < p.text.length := by
        cases p with
        | code c => exact Nat.one_pos
        | region kind t => exact List.length_pos_iff.mpr (region_ne_nil (hmem (.region kind t) (by rw [hms]; simp)))
      refine ⟨es, p, s, by rw [hms]; simp, hs, ?_, ?_, Or.inr htext.symm⟩
      · rw [← htext, textOf_append, List.length_append, textOf_cons, List.length_append]
        omega
      · rw [← htext, textOf_append, List.length_append, textOf_cons, List.length_append]
        simp
  · refine ⟨ms, .region kind (t ++ s₁), s₂, hms, fun c hc => hs c (List.mem_append_right _ hc), ?_, ?_, Or.inl ?_⟩
    · rw [hm, List.length_append]
      have := List.length_pos_iff.mpr ht
      omega
    · rw [hm, List.length_append, Piece.text, List.length_append]
      omega
    · cases kind with
      | comment => exact ⟨_, rfl⟩
      | literal =>
        exfalso
        obtain ⟨q, -, hq, hquote⟩ := getLast?_of_literal (hmem (.region .literal (t ++ s₁)) (by rw [hms]; simp))
        rw [List.getLast?_append, List.getLast?_eq_some_getLast hs₁, Option.some_or, Option.some.injEq] at hq
        have hspace := hs q (List.mem_append_left _ (hq ▸ List.getLast_mem hs₁))
        rw [(neutral_of_class (by decide) hspace).1] at hquote
        cases hquote

/-- **The end of the base.** It stands between two pieces, not behind a comment, and behind it there are only spaces
and comments. -/
theorem trimTriviaEnd_pieces {T : Text} {FA Fx FR : List Piece} {start stop : Nat} (hp : pieces T = FA ++ (Fx ++ FR))
    (hs : (textOf FA).length = start) (hstop : start + (textOf Fx).length = stop)
    (hlt : start < trimTriviaEnd T (regions T) start stop) :
    ∃ Fb M : List Piece, Fx = Fb ++ M ∧ trimTriviaEnd T (regions T) start stop = start + (textOf Fb).length ∧
      (∀ p ∈ M, isTrivia p = true) ∧ ∀ t, Fb.getLast? ≠ some (.region .comment t) := by
  induction stop using Nat.strongRecOn generalizing Fx FR with
  | ind stop ih =>
    have hslice : Text.slice T start stop = textOf Fx := slice_of_pieces hp hs hstop
    have hle := trimTriviaEnd_le T (regions T) start stop
    rw [hslice] at hle
    have hne : Text.trimEnd (textOf Fx) ≠ [] := fun e => by
      rw [e, List.length_nil] at hle
      omega
    obtain ⟨es, p, s, rfl, hspace, h1, h2, hcases⟩ := last_piece hp hne
    have hcut : pieces T = (FA ++ es) ++ p :: (s.map .code ++ FR) := by rw [hp]; simp
    have hlen : (textOf (FA ++ es)).length = start + (textOf es).length := by rw [textOf_append, List.length_append, hs]
    rw [trimTriviaEnd, hslice] at hlt ⊢
    generalize hm : Text.trimEnd (textOf (es ++ p :: s.map .code)) = m at *
    have hat := @regionAt?_piece T (FA ++ es) (s.map .code ++ FR) p (start + m.length - 1) hcut (by omega) (by omega)
    simp only [hat] at hlt ⊢
    have hspaces : ∀ q ∈ s.map Piece.code, isTrivia q = true := fun q hq => by
      obtain ⟨c, hc, rfl⟩ := List.mem_map.mp hq
      exact hspace c hc
    -- the last piece is no comment
    have hend : (∀ t, p ≠ .region .comment t) → ∃ Fb M : List Piece, es ++ p :: s.map .code = Fb ++ M ∧
        start + m.length = start + (textOf Fb).length ∧ (∀ q ∈ M, isTrivia q = true) ∧
        ∀ t, Fb.getLast? ≠ some (.region .comment t) := fun hno => by
      rcases hcases with ⟨t, ht⟩ | ht
      · exact absurd ht (hno t)
      · refine ⟨es ++ [p], s.map .code, by simp, by rw [ht], hspaces, fun t hl => hno t ?_⟩
        rw [List.getLast?_append] at hl
        exact Option.some.inj hl
    cases p with
    | code c =>
      simp only [regionOf?, Option.filter_none] at hlt ⊢
      exact hend (fun t => by simp)
    | region kind t =>
      cases kind with
      | literal =>
        simp only [regionOf?, Option.filter] at hlt ⊢
        exact hend (fun t => by simp)
      | comment =>
        have hpos : 0 < t.length :=
          List.length_pos_iff.mpr (region_ne_nil (by rw [hcut]; exact List.mem_append_right _ List.mem_cons_self))
        have hfilter : (regionOf? (textOf (FA ++ es)).length (.region .comment t)).filter
            (fun r => r.kind = .comment && start ≤ r.start) =
              some ⟨.comment, (textOf (FA ++ es)).length, (textOf (FA ++ es)).length + t.length⟩ := by
          simp [regionOf?, Option.filter, hs]
        have hbefore : start + (textOf es).length < stop := by
          rw [textOf_append, textOf_cons, List.length_append, List.length_append, Piece.text] at hstop
          omega
        rw [hfilter] at hlt ⊢
        simp only [hlen, hbefore, if_true] at hlt ⊢
        have hinner : pieces T = FA ++ (es ++ .region .comment t :: (s.map .code ++ FR)) := by
          rw [hcut, List.append_assoc]
        obtain ⟨Fb, M, rfl, hres, hM, hlast⟩ := ih _ hbefore hinner rfl hlt
        refine ⟨Fb, M ++ .region .comment t :: s.map .code, by simp, hres, fun q hq => ?_, hlast⟩
        rcases List.mem_append.mp hq with hq | hq
        · exact hM q hq
        · rcases List.mem_cons.mp hq with rfl | hq
          · rfl
          · exact hspaces q hq

theorem length_lt_trimEnd {x y : Text} {c : Char} (hc : isSpace c = false) :
    x.length < (Text.trimEnd (x ++ c :: y)).length := by
  obtain ⟨s, hx, hs⟩ := Text.trimEnd_decomp (x ++ c :: y)
  rcases append_eq_append_cons hx.symm with ⟨z, -, hcs⟩ | ⟨z, hz, -⟩
  · rw [hs c (by rw [hcs]; simp)] at hc
    cases hc
  · rw [hz, List.length_append, List.length_cons]
    omega

/-- A base in front of a comment with the sign in it ends in front of the comment. -/
theorem trimTriviaEnd_comment {T t : Text} {FA Fx FR : List Piece} {start stop : Nat}
    (hp : pieces T = FA ++ (Fx ++ .region .comment t :: FR)) (hs : (textOf FA).length = start)
    (h1 : start + (textOf Fx).length < stop) (h2 : stop < start + (textOf Fx).length + t.length) :
    trimTriviaEnd T (regions T) start stop = trimTriviaEnd T (regions T) start (start + (textOf Fx).length) := by
  obtain ⟨c, hc, hspace⟩ := head_of_region (show Piece.region .comment t ∈ pieces T by rw [hp]; simp)
  obtain ⟨k, rfl⟩ : ∃ k, stop = start + (textOf Fx).length + (k + 1) :=
    ⟨stop - (start + (textOf Fx).length) - 1, by omega⟩
  obtain ⟨u, rfl⟩ : ∃ u, t = c :: u := by
    cases t with
    | nil => cases hc
    | cons d u => exact ⟨u, by rw [Option.some.inj hc]⟩
  have hslice : Text.slice T start (start + (textOf Fx).length + (k + 1)) = textOf Fx ++ c :: u.take k := by
    have hT : T = textOf FA ++ (textOf Fx ++ (c :: u ++ textOf FR)) := by
      rw [← textOf_pieces T, hp, textOf_append, textOf_append]
      rfl
    have htake : (c :: u ++ textOf FR).take (k + 1) = c :: u.take k := by
      rw [List.cons_append, List.take_succ_cons, List.take_append_of_le_length]
      rw [List.length_cons] at h2
      omega
    rw [Text.slice, hT, ← hs, Nat.add_assoc, List.take_length_add_append, List.take_length_add_append,
      List.drop_left, htake]
  have hlen : (textOf (FA ++ Fx)).length = start + (textOf Fx).length := by rw [textOf_append, List.length_append, hs]
  have hgt := @length_lt_trimEnd (textOf Fx) (u.take k) c hspace
  have hle : (Text.trimEnd (textOf Fx ++ c :: u.take k)).length ≤ (textOf Fx).length + (k + 1) := by
    obtain ⟨s, hx, -⟩ := Text.trimEnd_decomp (textOf Fx ++ c :: u.take k)
    have := congrArg List.length hx
    rw [List.length_append, List.length_append, List.length_cons, List.length_take] at this
    omega
  have hcut : pieces T = (FA ++ Fx) ++ .region .comment (c :: u) :: FR := by rw [hp]; simp
  rw [trimTriviaEnd, hslice]
  generalize Text.trimEnd (textOf Fx ++ c :: u.take k) = m at *
  have hat := @regionAt?_piece T (FA ++ Fx) FR (.region .comment (c :: u)) (start + m.length - 1) hcut (by omega)
    (by simp only [Piece.text]; omega)
  have hfilter : (regionOf? (textOf (FA ++ Fx)).length (.region .comment (c :: u))).filter
      (fun r => r.kind = .comment && start ≤ r.start) =
        some ⟨.comment, (textOf (FA ++ Fx)).length, (textOf (FA ++ Fx)).length + (c :: u).length⟩ := by
    simp [regionOf?, Option.filter, hs]
  simp only [hat]
  rw [hfilter]
  simp only [hlen, h1, if_true]

/-- Where the base starts, no word goes on and no blank stands. -/
theorem startsAt_baseStart {T : Text} {i signAt : Nat} (hlit : NotInLiteral T signAt) (hi : StartsAt T i)
    (hlt : baseStart T i signAt < signAt) (hne : T.drop (baseStart T i signAt) ≠ []) :
    StartsAt T (baseStart T i signAt) ∧ (T.drop (baseStart T i signAt)).head?.any isBlank = false := by
  obtain ⟨FB, hp, hl, -⟩ := id hi
  have hlast : (T.take i).getLast? = (textOf FB).getLast? := by rw [take_of_pieces hp hl]
  have hcut := startsAt_stopWordCut hlit hp hl hlast hi
  unfold baseStart at hlt hne ⊢
  simp only at hlt hne ⊢
  generalize stopWordCut signAt (T.take i).getLast? i i (T.drop i) = cut at *
  have hmin : min (cut + triviaLength (T.drop cut)) signAt = cut + triviaLength (T.drop cut) := by omega
  rw [hmin] at hne ⊢
  exact startsAt_trivia hcut hne

/-- What stands between the start of the base and the place from which on pieces are dropped. -/
theorem base_split {T : Text} {FA FJ M r : List Piece} {start signAt : Nat}
    (hA : pieces T = FA ++ pieces (T.drop start)) (hl : (textOf FA).length = start) (hp : pieces T = FJ ++ (M ++ r))
    (hlt : start < signAt)
    (hsign : AtOrInComment (textOf FJ).length signAt M) : ∃ Fx, FJ = FA ++ Fx := by
  rcases List.append_eq_append_iff.mp (hA.symm.trans hp) with ⟨x, hx, -⟩ | ⟨x, hx, hM⟩
  · exact ⟨x, hx⟩
  · have hlen : start = (textOf FJ).length + (textOf x).length := by rw [← hl, hx, textOf_append, List.length_append]
    rcases hsign with hsign | ⟨t, M', rfl, h1, h2⟩
    · omega
    · cases x with
      | nil => exact ⟨[], by rw [hx]; simp⟩
      | cons p x =>
        rw [List.cons_append, List.cons_append, List.cons.injEq] at hM
        rw [← hM.1, textOf_cons, List.length_append, Piece.text] at hlen
        omega

/-- What is read where a base is found. -/
theorem readBase_ok {T : Text} {signAt stop : Nat} {base : Base} (h : readBase T signAt stop = .ok base) :
    ∃ bound, boundaryBefore (marksBefore T signAt) = .ok bound ∧ base.start = baseStart T bound.start signAt ∧
      base.text = Text.slice T base.start (trimTriviaEnd T (regions T) base.start signAt) ∧ base.text ≠ [] ∧
      ∀ o, base.group = some o ↔ bound = .group o := by
  rw [readBase] at h
  split at h
  · cases h
  · next bound hbound =>
    simp only at h
    split at h
    · cases h
    · next hne =>
      rw [List.isEmpty_iff] at hne
      refine ⟨bound, hbound, ?_⟩
      cases bound with
      | group o => cases h; exact ⟨rfl, rfl, hne, by simp⟩
      | plain i => cases h; exact ⟨rfl, rfl, hne, by simp⟩

/-- A base is not empty, so it starts in front of the sign. -/
theorem start_lt_of_readBase {T : Text} {signAt stop : Nat} {base : Base} (h : readBase T signAt stop = .ok base) :
    base.start < signAt ∧ base.start < T.length := by
  obtain ⟨-, -, -, htext, hne, -⟩ := readBase_ok h
  have hpos := List.length_pos_iff.mpr hne
  have hend := trimTriviaEnd_le T (regions T) base.start signAt
  obtain ⟨spaces, hspaces⟩ := Text.trimEnd_prefix (Text.slice T base.start signAt)
  have hlen := congrArg List.length hspaces
  rw [htext] at hpos
  simp only [Text.slice, List.length_append, List.length_drop, List.length_take] at hpos hend hlen
  omega

/-- What stands before a base, the base, and what stands between the base and the keyword. -/
structure BasePieces (T : Text) (base : Base) (FA Fb M : List Piece) : Prop where
  start : (textOf FA).length = base.start
  text : textOf Fb = base.text
  ne : base.text ≠ []
  front : (textOf FA).getLast?.any isWord = false ∨
    EndsInStopWord (textOf FA) ∧ (T.drop base.start).head?.any isWord = false
  mark : (textOf FA).getLast? ≠ some '%'
  head : base.text.head?.any isBlank = false
  last : ∀ t, Fb.getLast? ≠ some (.region .comment t)
  dropped_ne : M ≠ []
  dropped : ∀ p ∈ M, isDropped p = true
  dropped_last : (textOf M).getLast?.any isWord = false
  group : ∀ o, base.group = some o →
    ∃ (ms : List Piece) (c : Char), pieces T = ms ++ .code c :: pieces (T.drop (o + 1)) ∧ (textOf ms).length = o

/-- **The base.** Up to the keyword the text is made of what is kept before the base, the base, spaces and comments up
to the sign or up to the comment in which it stands, and dropped pieces. -/
theorem readBase_split {T : Text} {kw signAt stop : Nat} {sign : Sign} {base : Base} {FS : List Piece}
    (hp : pieces T = FS ++ pieces (T.drop kw)) (hl : (textOf FS).length = kw)
    (hs : readSign T kw = .ok (sign, signAt)) (h : readBase T signAt stop = .ok base) :
    ∃ FA Fb D M : List Piece, FS = FA ++ (Fb ++ D) ++ M ∧ (∀ p ∈ D, isTrivia p = true) ∧
      AtOrInComment (textOf (FA ++ (Fb ++ D))).length signAt M ∧
      BasePieces T base FA Fb (D ++ M) := by
  obtain ⟨hlit, FJ, M, rfl, hMne, hM, hMlast, hsign⟩ := readSign_pieces hp hl hs
  rw [List.append_assoc] at hp
  obtain ⟨boundary, hb, hstart, htext, hne, hbgroup⟩ := readBase_ok h
  obtain ⟨hlt, hlen⟩ := start_lt_of_readBase h
  have hgroup := boundaryBefore_pieces hb
  have hA := @startsAt_baseStart T boundary.start signAt hlit (startsAt_boundary hb)
  rw [← hstart] at hA
  obtain ⟨⟨FA, hFA, hFAlen, hfront, hmark⟩, hhead⟩ := hA hlt (by rw [ne_eq, List.drop_eq_nil_iff]; omega)
  obtain ⟨Fx, rfl⟩ := base_split hFA hFAlen hp hlt hsign
  rw [List.append_assoc] at hp
  -- the base ends in front of the comment in which the sign may stand
  have hres : trimTriviaEnd T (regions T) base.start signAt =
      trimTriviaEnd T (regions T) base.start (base.start + (textOf Fx).length) := by
    rcases hsign with hsign | ⟨t, M', rfl, h1, h2⟩
    · rw [← hsign, textOf_append, List.length_append, hFAlen]
    · rw [textOf_append, List.length_append, hFAlen] at h1 h2
      exact trimTriviaEnd_comment hp hFAlen h1 h2
  rw [hres] at htext
  have hend : base.start < trimTriviaEnd T (regions T) base.start (base.start + (textOf Fx).length) := by
    have hpos := List.length_pos_iff.mpr hne
    rw [htext] at hpos
    simp only [Text.slice, List.length_drop, List.length_take] at hpos
    omega
  obtain ⟨Fb, M', rfl, hb', hM', hlast⟩ := trimTriviaEnd_pieces hp hFAlen rfl hend
  rw [List.append_assoc] at hp
  rw [slice_of_pieces hp hFAlen hb'.symm] at htext
  refine ⟨FA, Fb, M', M, rfl, hM', hsign, ?_⟩
  exact {
    start := hFAlen
    text := htext.symm
    ne := hne
    front := hfront
    mark := hmark
    head := by
      have hdrop : T.drop base.start = textOf Fb ++ textOf (M' ++ (M ++ pieces (T.drop kw))) := by
        rw [drop_of_pieces hp hFAlen, textOf_append]
      rw [hdrop] at hhead
      cases hFb : textOf Fb with
      | nil => exact absurd (htext.trans hFb) hne
      | cons c rest => rw [htext, hFb]; rw [hFb] at hhead; exact hhead
    last := hlast
    dropped_ne := by simp [hMne]
    dropped := fun p hp => by
      rcases List.mem_append.mp hp with hp | hp
      · exact isDropped_of_isTrivia (hM' p hp)
      · exact hM p hp
    dropped_last := by
      have hcut : pieces T = (FA ++ (Fb ++ M')) ++ (M ++ pieces (T.drop kw)) := by rw [hp]; simp
      have hne' : textOf M ≠ [] := fun e => hMne (textOf_eq_nil (pieces_textOf hcut) e)
      rw [textOf_append, List.getLast?_append, List.getLast?_eq_some_getLast hne']
      rw [List.getLast?_eq_some_getLast hne'] at hMlast
      exact hMlast
    group := fun o ho => by
      rcases hgroup with hplain | ⟨ms, c, hms, hmlen, -⟩
      · rw [(hbgroup o).mp ho] at hplain
        cases hplain
      · rw [(hbgroup o).mp ho] at hms hmlen
        exact ⟨ms, c, hms, by simpa [Boundary.start] using hmlen⟩ }

end SqlDialect.Interval
