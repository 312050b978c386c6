import SqlDialect.Proofs.Interval.Level
import SqlDialect.Proofs.Interval.Local

/-!
# The amounts of an interval expression

An amount reaches up to its unit, and the unit is the first word on its level that names one. Columns are named like
units too, and where a unit is missing the search runs on into the rest of the statement. So an amount may be cut behind
an operator or reach over FROM and WHERE: it is whole exactly if the first word that names a unit stands where a unit
can stand.

* `UnitSteps.noneLevel`: no unit is named in what the search passes over.
* `wholeAmount_iff`: an amount is whole if its unit follows neither an operator nor FROM or WHERE.
* `locate_amounts`: the amounts of the terms of an expression.
-/

namespace SqlDialect.Interval

/-! ## Units and amounts -/

/-- The binary operators. -/
def isOperator (c : Char) : Bool := c = '+' || c = '-' || c = '*' || c = '/' || c = '%'

/-- Does the keyword FROM or WHERE stand at the start of `text`, where `before` is in front? -/
def startsClause (before : Option Char) (text : Text) : Bool :=
  startsKeyword "from".toList before text || startsKeyword "where".toList before text

/-- The text from position `start` up to position `stop` is a whole amount: without its comments it does not end in an
operator, and outside its brackets and literals it holds neither FROM nor WHERE. -/
structure WholeAmount (T : Text) (start stop : Nat) : Prop where
  operand : (Text.trimEnd (textOf ((piecesBetween T start stop).filter (!·.isComment)))).getLast?.any isOperator = false
  clause : ∀ k, OnLevel T start stop k → startsClause (T.take k).getLast? (T.drop k) = false

/-- An operator stands in front of position `stop` on the level of position `start`, with only spaces and comments
between. -/
def FollowsOperator (T : Text) (start stop : Nat) : Prop :=
  ∃ k, OnLevel T start stop k ∧ T[k]?.any isOperator = true ∧ ∀ p ∈ piecesBetween T (k + 1) stop, isTrivia p = true

/-- FROM or WHERE stands in front of position `stop` on the level of position `start`. -/
def FollowsClause (T : Text) (start stop : Nat) : Prop :=
  ∃ k, OnLevel T start stop k ∧ startsClause (T.take k).getLast? (T.drop k) = true

/-- The first word that names a unit on the level of position `start` stands at position `stop`. -/
structure FirstUnit (T : Text) (start stop : Nat) : Prop where
  level : Level T start stop
  names : namesUnit (T.take stop).getLast? (T.drop stop) = true
  first : ∀ k, OnLevel T start stop k → namesUnit (T.take k).getLast? (T.drop k) = false

/-- A word at position `stop` that names a unit can be the unit of an amount that starts at position `start`: it
follows a whole operand and no further clause. -/
structure FitsUnit (T : Text) (start stop : Nat) : Prop where
  level : Level T start stop
  names : namesUnit (T.take stop).getLast? (T.drop stop) = true
  operator : ¬ FollowsOperator T start stop
  clause : ¬ FollowsClause T start stop

/-- The unit of an amount that starts at position `start` stands at position `stop`: no word in front of it can be the
unit. -/
structure RealUnit (T : Text) (start stop : Nat) : Prop where
  fits : FitsUnit T start stop
  first : ∀ k, OnLevel T start stop k → ¬ FitsUnit T start k

/-- The word at a position. -/
def wordAt (T : Text) (i : Nat) : Text := (T.drop i).takeWhile isWord

/-- Where the amounts of the terms stand whose first keyword is at position `kw`. -/
def amountSpans (text : Text) (kw : Nat) : List (Nat × Nat) :=
  match readTerm .plus (text.drop kw) with
  | .error _ => []
  | .ok (t, n) =>
    (kw + keyword.length, kw + n - t.unit.name.length) ::
      match _h : nextSign? (text.drop (kw + n)) with
      | none => []
      | some (_, skipped) => amountSpans text (kw + n + skipped)
termination_by text.length - kw
decreasing_by
  have := nextSign?_pos _h
  rw [List.length_drop] at this
  omega

/-! ## The search for a unit -/

theorem namesUnit_behind_word {b : Char} (hb : isWord b = true) (t : Text) : namesUnit (some b) t = false := by
  simp [namesUnit, hb]

theorem isQuote_class {q : Char} (h : isQuote q = true) :
    isSpace q = false ∧ isWord q = false ∧ isOperator q = false := by
  simp only [isQuote, Bool.or_eq_true, decide_eq_true_eq] at h
  rcases h with (rfl | rfl) | rfl <;> decide

theorem namesUnit_delimiter {before : Option Char} {c : Char} (t : Text) (hc : (isQuote c || isOpener c) = true) :
    namesUnit before (c :: t) = false := by
  have hword : isWord c = false := by
    rw [Bool.or_eq_true] at hc
    exact hc.elim (fun hq => (isQuote_class hq).2.1) isWord_of_isOpener
  simp [namesUnit, hword]

theorem UnitStep.noneLevel {before : Char} {ms : List Piece} {r : Text} (h : UnitStep before ms r) :
    NoneLevel namesUnit (some before) ms r := by
  cases h with
  | delimiter hc hn hp hlen _ => exact noneLevel_delimiter (fun _ _ t hd => namesUnit_delimiter t hd) hc hn hp hlen
  | comment => exact noneLevel_region
  | word hv hno => exact noneLevel_word (fun _ t hb => namesUnit_behind_word hb t) hv hno
  | code _ hno => exact noneLevel_code hno

/-- No unit is named in what the search passes over. -/
theorem UnitSteps.noneLevel {before : Char} {ys : List Piece} {r : Text} (h : UnitSteps before ys r) :
    NoneLevel namesUnit (some before) ys r := by
  induction h with
  | nil => exact .nil
  | cons hstep hlast _ ih => exact .append hstep.noneLevel hstep.nest (by rwa [hlast, Option.some_or])

/-! ## Where an amount ends -/

/-- The last piece that is neither a space nor a comment. -/
def lastToken? (ps : List Piece) : Option Piece := (ps.filter (!isTrivia ·)).getLast?

theorem lastToken?_eq_some_iff {ps : List Piece} {p : Piece} :
    lastToken? ps = some p ↔
      isTrivia p = false ∧ ∃ ms ns, ps = ms ++ p :: ns ∧ ∀ q ∈ ns, isTrivia q = true := by
  rw [lastToken?, List.getLast?_filter, List.find?_eq_some_iff_append, Bool.not_eq_true']
  refine and_congr_right fun _ => ?_
  constructor
  · rintro ⟨as, bs, hps, has⟩
    refine ⟨bs.reverse, as.reverse, by rw [← List.reverse_reverse ps, hps]; simp, fun q hq => ?_⟩
    simpa using has q (List.mem_reverse.mp hq)
  · rintro ⟨ms, ns, rfl, hns⟩
    exact ⟨ns.reverse, ms.reverse, by simp, fun q hq => by simpa using hns q (List.mem_reverse.mp hq)⟩

/-- Without comments only spaces are left. -/
theorem spaces_of_trivia {ns : List Piece} (h : ∀ p ∈ ns, isTrivia p = true) :
    ∀ c ∈ textOf (ns.filter (!·.isComment)), isSpace c = true := by
  intro c hc
  obtain ⟨p, hp, hcp⟩ := List.mem_flatMap.mp hc
  obtain ⟨hmem, hno⟩ := List.mem_filter.mp hp
  have htrivia := h p hmem
  cases p with
  | code d =>
    obtain rfl : c = d := by simpa [Piece.text] using hcp
    exact htrivia
  | region kind t =>
    cases kind with
    | literal => simp [isTrivia] at htrivia
    | comment => simp [Piece.isComment] at hno

theorem isOperator_class {c : Char} (h : isOperator c = true) :
    isSpace c = false ∧ isQuote c = false ∧ isOpener c = false ∧ isCloser c = false := by
  simp only [isOperator, Bool.or_eq_true, decide_eq_true_eq] at h
  rcases h with (((rfl | rfl) | rfl) | rfl) | rfl <;> decide

/-- The end of a text without its comments and the spaces behind them. -/
theorem getLast?_without_comments {T : Text} {ps : List Piece} (h : ∀ p ∈ ps, p ∈ pieces T) :
    (Text.trimEnd (textOf (ps.filter (!·.isComment)))).getLast? = (lastToken? ps).bind (·.text.getLast?) := by
  cases hl : lastToken? ps with
  | none =>
    have htrivia : ∀ p ∈ ps, isTrivia p = true := by
      simpa [lastToken?, List.getLast?_eq_none_iff, List.filter_eq_nil_iff] using hl
    have htrim := trimEnd_append_spaces [] (spaces_of_trivia htrivia)
    rw [List.nil_append] at htrim
    rw [htrim]
    rfl
  | some p =>
    obtain ⟨hp, ms, ns, rfl, hns⟩ := lastToken?_eq_some_iff.mp hl
    have hin : p ∈ pieces T := h p (by simp)
    -- a piece that is neither a space nor a comment does not end in a space
    obtain ⟨d, hd, hs, hno⟩ : ∃ d, p.text.getLast? = some d ∧ isSpace d = false ∧ p.isComment = false := by
      cases p with
      | code c => exact ⟨c, rfl, hp, rfl⟩
      | region kind t =>
        cases kind with
        | comment => simp [isTrivia] at hp
        | literal =>
          obtain ⟨q, -, hlast, hquote⟩ := getLast?_of_literal hin
          exact ⟨q, hlast, (isQuote_class hquote).1, rfl⟩
    have htext : textOf ((ms ++ p :: ns).filter (!·.isComment)) =
        textOf (ms.filter (!·.isComment)) ++ p.text ++ textOf (ns.filter (!·.isComment)) := by
      rw [List.filter_append, List.filter_cons_of_pos (by simp [hno]), textOf_append, textOf_cons, List.append_assoc]
    have hend := trimEnd_append (x := textOf (ms.filter (!·.isComment)) ++ p.text)
      (by rw [List.getLast?_append, hd, Option.some_or, Option.all_some, hs]; rfl) []
    rw [List.append_nil] at hend
    rw [htext, trimEnd_append_spaces _ (spaces_of_trivia hns), hend, Text.trimEnd, List.append_nil,
      List.getLast?_append, hd, Option.some_or, Option.bind_some, hd]

/-- An amount without its comments ends in an operator if this is the last of its tokens. -/
theorem endsInOperator_iff {T : Text} {ps : List Piece} (h : ∀ p ∈ ps, p ∈ pieces T) :
    (Text.trimEnd (textOf (ps.filter (!·.isComment)))).getLast?.any isOperator = true ↔
      ∃ c, lastToken? ps = some (.code c) ∧ isOperator c = true := by
  rw [getLast?_without_comments h]
  cases hl : lastToken? ps with
  | none => simp
  | some p =>
    cases p with
    | code c => simp [Piece.text]
    | region kind t =>
      obtain ⟨hp, ms, ns, rfl, -⟩ := lastToken?_eq_some_iff.mp hl
      cases kind with
      | comment => simp [isTrivia] at hp
      | literal =>
        obtain ⟨q, -, hlast, hquote⟩ := getLast?_of_literal (h _ (by simp : Piece.region .literal t ∈ _))
        simp [Piece.text, hlast, (isQuote_class hquote).2.2]

section Place

variable {T : Text} {fs ys rs : List Piece} {start stop : Nat}

theorem followsOperator_iff (hp : pieces T = fs ++ (ys ++ rs)) (hstart : (textOf fs).length = start)
    (hstop : (textOf (fs ++ ys)).length = stop) (hn : nest [] ys = some []) :
    FollowsOperator T start stop ↔ ∃ c, lastToken? ys = some (.code c) ∧ isOperator c = true := by
  subst hstart hstop
  constructor
  · rintro ⟨k, ⟨-, hk, hlevel⟩, hop, hbehind⟩
    obtain ⟨ms, c, ns, rfl, rfl, -⟩ := (level_code_iff hp hk).mp hlevel
    have hplace : pieces T = (fs ++ ms) ++ .code c :: (ns ++ rs) := by rw [hp]; simp
    rw [(code_at hplace rfl).1, Option.any_some] at hop
    have hbetween := piecesBetween_behind (j := (textOf (fs ++ (ms ++ .code c :: ns))).length) hplace rfl
      (by simp [Piece.text]; omega)
    rw [hbetween] at hbehind
    refine ⟨c, lastToken?_eq_some_iff.mpr ⟨(isOperator_class hop).1, ms, ns, rfl, hbehind⟩, hop⟩
  · rintro ⟨c, hlast, hop⟩
    obtain ⟨-, ms, ns, rfl, hns⟩ := lastToken?_eq_some_iff.mp hlast
    obtain ⟨-, hq, ho, hc⟩ := isOperator_class hop
    have hplace : pieces T = (fs ++ ms) ++ .code c :: (ns ++ rs) := by rw [hp]; simp
    have hms : nest [] ms = some [] := nest_left hn (by rw [nest_code hq ho hc, nest_trivia hns])
    have hlt : (textOf (fs ++ ms)).length < (textOf (fs ++ (ms ++ .code c :: ns))).length := by simp [Piece.text]
    have hle : (textOf fs).length ≤ (textOf (fs ++ ms)).length := by simp
    refine ⟨_, ⟨hle, hlt, (level_code_iff hp hlt).mpr ⟨ms, c, ns, rfl, rfl, hms⟩⟩, ?_, ?_⟩
    · rw [(code_at hplace rfl).1, Option.any_some, hop]
    · rw [piecesBetween_behind hplace rfl (by simp [Piece.text]; omega)]
      exact hns

/-- An amount is whole if its unit follows neither an operator nor FROM or WHERE. -/
theorem wholeAmount_iff (hp : pieces T = fs ++ (ys ++ rs)) (hstart : (textOf fs).length = start)
    (hstop : (textOf (fs ++ ys)).length = stop) (hn : nest [] ys = some []) :
    WholeAmount T start stop ↔ ¬ FollowsOperator T start stop ∧ ¬ FollowsClause T start stop := by
  have hbetween : piecesBetween T start stop = ys := by
    subst hstart hstop
    exact piecesBetween_eq (pieces_drop hp) (by rw [textOf_append, List.length_append])
  have hoperand : (Text.trimEnd (textOf ((piecesBetween T start stop).filter (!·.isComment)))).getLast?.any isOperator =
      false ↔ ¬ FollowsOperator T start stop := by
    rw [followsOperator_iff hp hstart hstop hn, hbetween, ← Bool.not_eq_true,
      endsInOperator_iff fun p hm => hp ▸ List.mem_append_right _ (List.mem_append_left _ hm)]
  constructor
  · rintro ⟨hlast, hclause⟩
    refine ⟨hoperand.mp hlast, fun ⟨k, hk, hstarts⟩ => ?_⟩
    rw [hclause k hk] at hstarts
    cases hstarts
  · rintro ⟨hlast, hclause⟩
    exact ⟨hoperand.mpr hlast, fun k hk => Bool.eq_false_iff.mpr fun hstarts => hclause ⟨k, hk, hstarts⟩⟩

/-- The first word that names a unit is the unit if it follows neither an operator nor FROM or WHERE. -/
theorem FirstUnit.real_iff (h : FirstUnit T start stop) :
    RealUnit T start stop ↔ ¬ FollowsOperator T start stop ∧ ¬ FollowsClause T start stop := by
  constructor
  · intro hreal
    exact ⟨hreal.fits.operator, hreal.fits.clause⟩
  · rintro ⟨hoperator, hclause⟩
    refine ⟨⟨h.level, h.names, hoperator, hclause⟩, fun k hk hfits => ?_⟩
    have hnames := hfits.names
    rw [h.first k hk] at hnames
    cases hnames

end Place

/-! ## The terms -/

/-- Behind a word it makes no difference which one it is. -/
theorem namesUnit_or_word {b b' : Char} (hb : isWord b = true) (hb' : isWord b' = true) (before : Option Char)
    (text : Text) : namesUnit (before.or (some b)) text = namesUnit (before.or (some b')) text := by
  cases before with
  | none => rw [Option.none_or, Option.none_or, namesUnit_behind_word hb, namesUnit_behind_word hb']
  | some c => rfl

/-- The search for a unit behind a word comes to the first word that names one. -/
theorem UnitSteps.firstUnit {T r : Text} {fs ys : List Piece} {b b' : Char} (h : UnitSteps b ys r)
    (hp : pieces T = fs ++ (ys ++ pieces r)) (hlast : (textOf fs).getLast? = some b') (hb : isWord b = true)
    (hb' : isWord b' = true) (hnames : namesUnit ((textOf ys).getLast?.or (some b)) r = true) :
    FirstUnit T (textOf fs).length (textOf (fs ++ ys)).length := by
  have hcut : pieces T = (fs ++ ys) ++ pieces r := by rw [hp, List.append_assoc]
  have hnone : NoneLevel namesUnit (textOf fs).getLast? ys (textOf (pieces r)) := by
    intro ms c ns he hms
    rw [hlast, namesUnit_or_word hb' hb, textOf_pieces]
    exact h.noneLevel ms c ns he hms
  refine ⟨level_iff.mpr ⟨ys, pieces r, pieces_drop hp, ?_, h.nest⟩, ?_, (noneLevel_iff hp).mp hnone⟩
  · rw [textOf_append, List.length_append]
  · rw [take_of_pieces hcut rfl, drop_of_pieces hcut rfl, textOf_append, List.getLast?_append, hlast, textOf_pieces,
      namesUnit_or_word hb' hb, hnames]

/-- The amount and the unit of a term whose keyword stands at position `kw`. -/
theorem amount_of_readTerm {T : Text} {kw n : Nat} {FS : List Piece} {b : Option Char} {sign : Sign} {t : Term}
    (hp : pieces T = FS ++ pieces (T.drop kw)) (hl : (textOf FS).length = kw)
    (hk : startsKeyword keyword b (T.drop kw) = true) (h : readTerm sign (T.drop kw) = .ok (t, n)) :
    t.amount = Text.trim (Text.slice T (kw + keyword.length) (kw + n - t.unit.name.length)) ∧
      TimeUnit.ofWord? (wordAt T (kw + n - t.unit.name.length)) = some t.unit ∧
      FirstUnit T (kw + keyword.length) (kw + n - t.unit.name.length) ∧
      (WholeAmount T (kw + keyword.length) (kw + n - t.unit.name.length) ↔
        RealUnit T (kw + keyword.length) (kw + n - t.unit.name.length)) := by
  obtain ⟨v, x, hdrop, hv, hlen, -⟩ := startsKeyword_keyword hk
  obtain ⟨start, hu, hamount, -⟩ := readTerm_ok h
  obtain ⟨ys, r, hys, hsteps, rfl, rfl, hunit, hnames⟩ := findUnit_steps hu
  rw [hdrop, ← hlen, List.drop_left] at hys
  have hword := isWord_of_lower_eq hv isWord_keyword
  have hread : pieces (T.drop kw) = v.map .code ++ (ys ++ pieces r) := by
    rw [hdrop, ← hys]
    exact reads_word hword x
  have hcut : pieces T = (FS ++ v.map .code) ++ (ys ++ pieces r) := by rw [hp, hread, List.append_assoc]
  have hstart : (textOf (FS ++ v.map .code)).length = kw + keyword.length := by
    rw [textOf_append, List.length_append, hl, textOf_map_code, hlen]
  have hstop : (textOf ((FS ++ v.map .code) ++ ys)).length = kw + keyword.length + (textOf ys).length := by
    rw [textOf_append _ ys, List.length_append, hstart]
  have hslice : Text.slice (T.drop kw) keyword.length (keyword.length + (textOf ys).length) =
      Text.slice T (kw + keyword.length) (kw + keyword.length + (textOf ys).length) := by
    rw [slice_of_pieces hread (by rw [textOf_map_code, hlen]) rfl, slice_of_pieces hcut hstart rfl]
  have hsame := List.find?_some hunit
  simp only [Text.same, beq_iff_eq] at hsame
  have hname : kw + (keyword.length + (textOf ys).length + (r.takeWhile isWord).length) - t.unit.name.length =
      kw + keyword.length + (textOf ys).length := by
    rw [length_eq_of_lower_eq hsame]
    omega
  have hbehind : T.drop (kw + keyword.length + (textOf ys).length) = r := by
    rw [drop_of_pieces (by rw [hcut, ← List.append_assoc]) hstop, textOf_pieces]
  -- the last character of the keyword is a word character, in either letter case
  have hne : v ≠ [] := fun e => keyword_ne_nil (List.length_eq_zero_iff.mp (by rw [← hlen, e]; rfl))
  have hlast : (textOf (FS ++ v.map .code)).getLast? = some (v.getLast hne) := by
    rw [textOf_append, textOf_map_code, List.getLast?_append, List.getLast?_eq_some_getLast hne, Option.some_or]
  have hfirst := hsteps.firstUnit hcut hlast (by decide) (hword _ (List.getLast_mem hne)) hnames
  rw [hstart, hstop] at hfirst
  rw [hname]
  refine ⟨hamount.trans (by rw [hslice]), by rw [wordAt, hbehind, hunit], hfirst, ?_⟩
  rw [wholeAmount_iff hcut hstart hstop hsteps.nest, hfirst.real_iff]

/-- The sign makes no difference to what is read. -/
theorem readTerm_sign {sign : Sign} {source : Text} {t : Term} {n : Nat} (h : readTerm sign source = .ok (t, n))
    (sign' : Sign) : readTerm sign' source = .ok ({ t with sign := sign' }, n) := by
  obtain ⟨start, hu, hamount, hne, hnests, -⟩ := readTerm_ok h
  rw [readTerm, hu]
  simp only [← hamount]
  rw [if_neg (by simpa using hne), if_neg (by simpa using hnests)]

/-- The terms behind a sign. -/
theorem readTerms_of_readChain {text : Text} {sign : Sign} {skipped m : Nat} {ts : List Term}
    (hs : nextSign? text = some (sign, skipped)) (h : readChain text = .ok (ts, m)) :
    ∃ k, readTerms sign (text.drop skipped) = .ok (ts, k) := by
  rw [readChain_of_some hs] at h
  split at h
  · cases h
  · next t n ht =>
    split at h
    · cases h
    · next ts' k hc =>
      cases h
      refine ⟨n + k, ?_⟩
      rw [readTerms, ht]
      simp only [List.drop_drop, hc]

/-- **The amounts of a chain of terms** whose first keyword stands at position `kw`. -/
theorem amounts_of_readTerms {T : Text} {kw m : Nat} {FS : List Piece} {b : Option Char} {sign : Sign} {ts : List Term}
    (hp : pieces T = FS ++ pieces (T.drop kw)) (hl : (textOf FS).length = kw)
    (hk : startsKeyword keyword b (T.drop kw) = true) (h : readTerms sign (T.drop kw) = .ok (ts, m)) :
    ts.map (fun t => (t.amount, some t.unit)) =
        (amountSpans T kw).map (fun s => (Text.trim (Text.slice T s.1 s.2), TimeUnit.ofWord? (wordAt T s.2))) ∧
      ∀ s ∈ amountSpans T kw, FirstUnit T s.1 s.2 ∧ (WholeAmount T s.1 s.2 ↔ RealUnit T s.1 s.2) := by
  fun_induction amountSpans T kw generalizing FS b sign ts m with
  | case1 kw e he =>
    obtain ⟨t, n, ts', k, ht, -⟩ := readTerms_ok h
    rw [readTerm_sign ht .plus] at he
    cases he
  | case2 kw t₀ n hplus ih =>
    obtain ⟨t, n', ts', k, ht, hc, rfl, -⟩ := readTerms_ok h
    rw [readTerm_sign ht .plus, Except.ok.injEq, Prod.mk.injEq] at hplus
    obtain ⟨rfl, rfl⟩ := hplus
    obtain ⟨hamount, hunit, hfirst⟩ := amount_of_readTerm hp hl hk ht
    rw [List.drop_drop] at hc
    dsimp only at ih ⊢
    split
    · next hs =>
      rw [readChain_of_none hs] at hc
      cases hc
      exact ⟨by simp [hamount, hunit], by simpa using hfirst⟩
    · next sign' skipped hs =>
      obtain ⟨qs, hq, hm, -⟩ := readTerm_pieces hk ht
      obtain ⟨ds, es, hgap, -, hlen, -, -, hk'⟩ := nextSign?_pieces hs
      obtain ⟨k', hread⟩ := readTerms_of_readChain hs hc
      rw [List.drop_drop] at hq hgap hk' hread
      have hp' : pieces T = (FS ++ qs ++ (ds ++ .code sign'.char :: es)) ++ pieces (T.drop (kw + n' + skipped)) := by
        rw [hp, hq, hgap]
        simp
      have hl' : (textOf (FS ++ qs ++ (ds ++ .code sign'.char :: es))).length = kw + n' + skipped := by
        simp only [textOf_append, textOf_cons, Piece.text, List.length_append, List.length_singleton, hl, hm]
        omega
      obtain ⟨hterms, hspans⟩ := ih sign' skipped hs hp' hl' hk' hread
      refine ⟨by rw [List.map_cons, List.map_cons, hterms, ← hamount, hunit], ?_⟩
      exact List.forall_mem_cons.mpr ⟨hfirst, hspans⟩

/-- **The amounts of an expression.** Each reaches up to the first word on its level that names a unit, and it is whole
exactly if this is the real unit. -/
theorem locate_amounts {T : Text} {kw : Nat} {e : Expression} (hcode : regionAt? (regions T) kw = none)
    (hk : startsKeyword keyword (T.take kw).getLast? (T.drop kw) = true) (h : locate T kw = .ok e) :
    e.terms.map (fun t => (t.amount, some t.unit)) =
        (amountSpans T kw).map (fun s => (Text.trim (Text.slice T s.1 s.2), TimeUnit.ofWord? (wordAt T s.2))) ∧
      ∀ s ∈ amountSpans T kw, FirstUnit T s.1 s.2 ∧ (WholeAmount T s.1 s.2 ↔ RealUnit T s.1 s.2) := by
  obtain ⟨FS, hp, hl⟩ := cut_of_keyword hcode hk
  obtain ⟨sign, signAt, base, n, -, -, hts, -⟩ := locate_ok h
  exact amounts_of_readTerms hp hl hk hts

/-- The amount `60*hour` is cut at its column; the unit behind it stays in the text. -/
theorem locate_amounts_column :
    let T := "select t + interval 60*hour minute".toList
    let e : Expression := ⟨"t".toList, [⟨.plus, "60*".toList, .hour⟩], 7, 27⟩
    regionAt? (regions T) 11 = none ∧ startsKeyword keyword (T.take 11).getLast? (T.drop 11) = true ∧
      locate T 11 = .ok e ∧ amountSpans T 11 = [(19, 23)] ∧ FirstUnit T 19 23 ∧ ¬ WholeAmount T 19 23 ∧
      ¬ RealUnit T 19 23 ∧ RealUnit T 19 28 ∧
      T.take e.start ++ e.render ++ T.drop e.stop = "select datetime(t, (60*) || ' hours') minute".toList := by
  intro T e
  have hcode : regionAt? (regions T) 11 = none := by decide +kernel
  have hkeyword : startsKeyword keyword (T.take 11).getLast? (T.drop 11) = true := by decide +kernel
  have hlocate : locate T 11 = .ok e := eq_ok_of_toOption (by decide +kernel)
  have hspans : amountSpans T 11 = [(19, 23)] := by decide +kernel
  have hcut : FollowsOperator T 19 23 := ⟨22, by decide +kernel, by decide +kernel, by decide +kernel⟩
  obtain ⟨-, hall⟩ := locate_amounts hcode hkeyword hlocate
  obtain ⟨hfirst, hiff⟩ := hall (19, 23) (by rw [hspans]; exact List.mem_cons_self)
  have hno : ¬ RealUnit T 19 23 := fun hreal => hreal.fits.operator hcut
  have hoperators : ∀ k < 28, T[k]?.any isOperator = true → k = 9 ∨ k = 22 := by decide +kernel
  have hclauses : ∀ k < 28, startsClause (T.take k).getLast? (T.drop k) = false := by decide +kernel
  have hnames : ∀ k < 28, namesUnit (T.take k).getLast? (T.drop k) = true → k = 23 := by decide +kernel
  refine ⟨hcode, hkeyword, hlocate, hspans, hfirst, fun hwhole => hno (hiff.mp hwhole), hno, ⟨⟨?_, ?_, ?_, ?_⟩, ?_⟩, ?_⟩
  · decide +kernel
  · decide +kernel
  · rintro ⟨k, ⟨hle, hlt, -⟩, hop, htrivia⟩
    rcases hoperators k hlt hop with rfl | rfl
    · omega
    · exact absurd htrivia (by decide +kernel)
  · rintro ⟨k, ⟨-, hlt, -⟩, hstarts⟩
    rw [hclauses k hlt] at hstarts
    cases hstarts
  · rintro k ⟨-, hlt, -⟩ hfits
    obtain rfl := hnames k hlt hfits.names
    exact hfits.operator hcut
  · decide +kernel

end SqlDialect.Interval
