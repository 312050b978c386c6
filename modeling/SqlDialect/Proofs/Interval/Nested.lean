import SqlDialect.Proofs.Interval.Level

/-!
# Subtractions in nested parentheses

A term is refused if the parentheses of its amount nest and the amount holds a minus sign. The check goes through all
characters of the amount, those of its literals and comments included. So a parenthesis or a dash in one of these may
get a term refused that its code does not refuse, and the other way round. No other character of theirs makes a
difference.

* `le_nesting_iff`: how deep parentheses nest, by counting.
* `nestsSubtraction_iff`: where no literal and no comment holds such a character, the check follows the code.
* `Passed`: what the search for a unit goes over, so that an amount can be put together around a literal or comment.
* `nested_iff_code`: the code decides exactly for the literals and comments without such a character.
-/

namespace SqlDialect.Interval

/-! ## How deep parentheses nest -/

/-- The depth behind a character. -/
def depthAfter (depth : Nat) (c : Char) : Nat :=
  if c = '(' then depth + 1 else if c = ')' then depth - 1 else depth

/-- A character that the check takes for a parenthesis or a minus sign. -/
def isCounted (c : Char) : Bool := c = '(' || c = ')' || c = '-'

theorem le_nesting (depth : Nat) (t : Text) : depth ≤ nesting depth t := by
  fun_induction nesting depth t with
  | case1 => exact Nat.le_refl _
  | case2 depth rest ih => omega
  | case3 depth rest ih => omega
  | case4 depth c rest _ _ ih => exact ih

theorem nesting_cons (depth : Nat) (c : Char) (t : Text) :
    nesting depth (c :: t) = max depth (nesting (depthAfter depth c) t) := by
  by_cases ho : c = '('
  · have := le_nesting (depth + 1) t
    simp only [ho, nesting, depthAfter, if_true]
    omega
  · by_cases hc : c = ')'
    · simp [hc, nesting, depthAfter]
    · have := le_nesting depth t
      simp [nesting, depthAfter, ho, hc, this]

/-- The parentheses of a text behind another nest from the depth on that this one leaves. -/
theorem nesting_append (depth : Nat) (t u : Text) :
    nesting depth (t ++ u) = max (nesting depth t) (nesting (t.foldl depthAfter depth) u) := by
  induction t generalizing depth with
  | nil =>
    have := le_nesting depth u
    simp only [List.nil_append, List.foldl_nil, nesting]
    omega
  | cons c t ih => rw [List.cons_append, nesting_cons, nesting_cons, ih, List.foldl_cons, Nat.max_assoc]

/-- Other characters make no difference. -/
theorem nesting_filter (depth : Nat) (t : Text) : nesting depth (t.filter isCounted) = nesting depth t := by
  induction t generalizing depth with
  | nil => rfl
  | cons c t ih =>
    by_cases hc : isCounted c = true
    · rw [List.filter_cons_of_pos hc, nesting_cons, nesting_cons, ih]
    · have hd : depthAfter depth c = depth := by
        simp only [isCounted, Bool.or_eq_true, decide_eq_true_eq, not_or] at hc
        simp [depthAfter, hc]
      have := le_nesting depth t
      rw [List.filter_cons_of_neg hc, nesting_cons, ih, hd]
      omega

/-- **How deep parentheses nest**, by counting. No parenthesis may be closed that is not open. -/
theorem le_nesting_iff {k depth : Nat} {t : Text}
    (h : ∀ i, (t.take i).count ')' ≤ depth + (t.take i).count '(') :
    k ≤ nesting depth t ↔ ∃ i ≤ t.length, (t.take i).count ')' + k ≤ depth + (t.take i).count '(' := by
  induction t generalizing depth with
  | nil => simp [nesting]
  | cons c t ih =>
    have hstep : ∀ i, ((c :: t).take (i + 1)).count ')' + depthAfter depth c + (t.take i).count '(' =
        depth + ((c :: t).take (i + 1)).count '(' + (t.take i).count ')' := by
      intro i
      have h1 := h 1
      simp only [List.take_succ_cons, List.take_zero, List.count_cons, List.count_nil, beq_iff_eq] at h1
      simp only [List.take_succ_cons, List.count_cons, beq_iff_eq, depthAfter]
      by_cases ho : c = '('
      · simp [ho]
        omega
      · by_cases hc : c = ')'
        · simp [hc] at h1 ⊢
          omega
        · simp [ho, hc]
          omega
    have hrest : ∀ i, (t.take i).count ')' ≤ depthAfter depth c + (t.take i).count '(' := fun i => by
      have := h (i + 1)
      have := hstep i
      omega
    have hmax : ∀ n, k ≤ max depth n ↔ k ≤ depth ∨ k ≤ n := fun n => by omega
    rw [nesting_cons, hmax, ih hrest]
    constructor
    · rintro (hk | ⟨i, hi, hk⟩)
      · exact ⟨0, Nat.zero_le _, by simpa using hk⟩
      · have := hstep i
        exact ⟨i + 1, by simpa using hi, by omega⟩
    · rintro ⟨i, hi, hk⟩
      cases i with
      | zero => exact .inl (by simpa using hk)
      | succ i =>
        have := hstep i
        exact .inr ⟨i, by simpa using hi, by omega⟩

/-! ## The code of an amount -/

/-- The characters of some pieces that stand neither in literals nor in comments. -/
def codeOf (ps : List Piece) : Text := textOf (ps.filter Piece.isCode)

/-- Does a text hold a minus sign, and is there a place in it with two parentheses open? -/
def NestsSubtraction (code : Text) : Prop :=
  (∃ i ≤ code.length, (code.take i).count ')' + 2 ≤ (code.take i).count '(') ∧ '-' ∈ code

instance (code : Text) : Decidable (NestsSubtraction code) :=
  inferInstanceAs (Decidable (_ ∧ _))

@[simp] theorem codeOf_code (c : Char) (ps : List Piece) : codeOf (.code c :: ps) = c :: codeOf ps := rfl

@[simp] theorem codeOf_region (kind : RegionKind) (t : Text) (ps : List Piece) :
    codeOf (.region kind t :: ps) = codeOf ps := rfl

theorem codeOf_append (ps qs : List Piece) : codeOf (ps ++ qs) = codeOf ps ++ codeOf qs := by
  simp [codeOf]

theorem codeOf_map_code (t : Text) : codeOf (t.map .code) = t := by
  induction t with
  | nil => rfl
  | cons c t ih => rw [List.map_cons, codeOf_code, ih]

/-- In code with matching brackets no parenthesis is closed that is not open. -/
theorem count_of_nest {s s' : List Char} {ps : List Piece} (h : nest s ps = some s') (i : Nat) :
    ((codeOf ps).take i).count ')' ≤ s.count '(' + ((codeOf ps).take i).count '(' := by
  fun_induction nest s ps generalizing i with
  | case1 => simp [codeOf]
  | case2 s kind t ps ih => exact ih h i
  | case3 => cases h
  | case4 s c ps hq ho ih =>
    cases i with
    | zero => simp
    | succ i =>
      have := ih h i
      have hne : c ≠ ')' := fun e => absurd (e ▸ ho) (by decide)
      simp only [codeOf_code, List.take_succ_cons, List.count_cons, beq_iff_eq, hne, if_false] at this ⊢
      omega
  | case5 s c ps hq ho hn ih =>
    cases i with
    | zero => simp
    | succ i =>
      have := ih h i
      have hne : c ≠ ')' := fun e => absurd (e ▸ hn) (by decide)
      simp only [codeOf_code, List.take_succ_cons, List.count_cons, beq_iff_eq, hne, if_false] at this ⊢
      omega
  | case6 => cases h
  | case7 c ps hq ho o s hn ih =>
    cases i with
    | zero => simp
    | succ i =>
      have := ih h i
      have hiff : c = ')' ↔ o = '(' := by
        rw [← closerOf?_eq_some_iff] at hn
        constructor
        · rintro rfl
          unfold closerOf? at hn
          split at hn <;> simp_all
        · rintro rfl
          exact (Option.some.inj hn).symm
      simp only [codeOf_code, List.take_succ_cons, List.count_cons, beq_iff_eq, hiff] at this ⊢
      omega
  | case8 => cases h


/-- Regions without such characters make no difference to the counting. -/
theorem filter_codeOf {ps : List Piece} (h : ∀ kind t, .region kind t ∈ ps → ∀ c ∈ t, isCounted c = false) :
    (codeOf ps).filter isCounted = (textOf ps).filter isCounted := by
  induction ps with
  | nil => rfl
  | cons p ps ih =>
    have hrest := ih fun kind t hm => h kind t (List.mem_cons_of_mem _ hm)
    cases p with
    | code c =>
      rw [codeOf_code, textOf_cons, Piece.text, List.singleton_append, List.filter_cons, List.filter_cons, hrest]
    | region kind t =>
      have hnone : t.filter isCounted = [] :=
        List.filter_eq_nil_iff.mpr fun c hc => by simp [h kind t List.mem_cons_self c hc]
      rw [codeOf_region, textOf_cons, Piece.text, List.filter_append, hnone, List.nil_append, hrest]

/-- Only the counted characters decide. -/
theorem nestsSubtraction_congr {a b : Text} (h : a.filter isCounted = b.filter isCounted) :
    nestsSubtraction a = nestsSubtraction b := by
  have hdash : ∀ t : Text, t.contains '-' = (t.filter isCounted).contains '-' := fun t => by
    rw [Bool.eq_iff_iff, List.contains_iff_mem, List.contains_iff_mem, List.mem_filter]
    simp [isCounted]
  rw [nestsSubtraction, nestsSubtraction, ← nesting_filter, h, nesting_filter, hdash a, h, ← hdash]

theorem filter_spaces {s : Text} (h : ∀ c ∈ s, isSpace c = true) : s.filter isCounted = [] := by
  refine List.filter_eq_nil_iff.mpr fun c hc hcounted => ?_
  have hs := h c hc
  simp only [isCounted, Bool.or_eq_true, decide_eq_true_eq] at hcounted
  rcases hcounted with (rfl | rfl) | rfl <;> exact absurd hs (by decide)

theorem nestsSubtraction_trim (a : Text) : nestsSubtraction (Text.trim a) = nestsSubtraction a := by
  obtain ⟨s₁, ha, hs₁⟩ := Text.trimStart_decomp a
  obtain ⟨s₂, hm, hs₂⟩ := Text.trimEnd_decomp (Text.trimStart a)
  refine nestsSubtraction_congr ?_
  conv => rhs; rw [ha, hm]
  rw [List.filter_append, List.filter_append, filter_spaces hs₁, filter_spaces hs₂, List.append_nil, List.nil_append]
  rfl

/-- Where no region holds a counted character, the check follows the code. -/
theorem nestsSubtraction_iff {ps : List Piece} (hn : nest [] ps = some [])
    (h : ∀ kind t, .region kind t ∈ ps → ∀ c ∈ t, isCounted c = false) :
    nestsSubtraction (textOf ps) = true ↔ NestsSubtraction (codeOf ps) := by
  have hdepth := @le_nesting_iff 2 0 (codeOf ps) (count_of_nest hn)
  simp only [Nat.zero_add] at hdepth
  rw [← nestsSubtraction_congr (filter_codeOf h), nestsSubtraction, NestsSubtraction, Bool.and_eq_true,
    decide_eq_true_eq, Nat.lt_iff_add_one_le, hdepth, List.contains_iff_mem]

/-! ## Terms that are refused -/

/-- Is the term refused that a text starts with, since a subtraction nests in its amount? -/
def RefusedAsNested (sign : Sign) (source : Text) : Prop :=
  ∃ e, readTerm sign source = .error e ∧ e.cause = .nestedSubtraction ∧ e.kind = .unsupported

/-- The text `source` starts with the keyword, and the pieces up to the unit that is found are `ps`. -/
def IsAmount (source : Text) (ps : List Piece) : Prop :=
  ∃ before unit start stop, startsKeyword keyword before source = true ∧
    findUnit source 'l' keyword.length (source.drop keyword.length) = .ok (unit, start, stop) ∧
    ps = piecesBetween source keyword.length start

/-- The brackets of an amount match, and its text decides whether the term is refused. -/
theorem IsAmount.refused_iff {sign : Sign} {source : Text} {ps : List Piece} (h : IsAmount source ps) :
    nest [] ps = some [] ∧ (RefusedAsNested sign source ↔ nestsSubtraction (textOf ps) = true) := by
  obtain ⟨before, unit, start, stop, hk, hu, rfl⟩ := h
  obtain ⟨v, x, hsource, hv, hlen, -⟩ := startsKeyword_keyword hk
  obtain ⟨ys, r, hys, hsteps, hstart, -⟩ := findUnit_steps hu
  have hread : pieces source = v.map .code ++ (ys ++ pieces r) := by
    rw [← hys, ← hlen, hsource, List.drop_left]
    exact reads_word (isWord_of_lower_eq hv isWord_keyword) x
  have hkw : (textOf (v.map Piece.code)).length = keyword.length := by rw [textOf_map_code, hlen]
  have hdrop := pieces_drop hread
  rw [hkw] at hdrop
  rw [piecesBetween_eq hdrop hstart.symm, ← slice_of_pieces hread hkw hstart.symm, ← nestsSubtraction_trim]
  refine ⟨hsteps.nest, ?_⟩
  rw [RefusedAsNested, readTerm, hu]
  simp only
  split
  · next hempty =>
    rw [List.isEmpty_iff.mp hempty]
    constructor
    · rintro ⟨e, he, hc, -⟩
      rw [← Except.error.inj he] at hc
      cases hc
    · intro hno
      cases hno
  · split
    · next hnests => exact ⟨fun _ => hnests, fun _ => ⟨_, rfl, rfl, rfl⟩⟩
    · next hnests =>
      refine ⟨?_, fun hyes => absurd hyes hnests⟩
      rintro ⟨e, he, -⟩
      cases he

/-! ## Regions that make a difference -/

/-- In front of a line break a region ends, whatever stands behind the line break. -/
theorem reads_region_line {kind : RegionKind} {t : Text}
    (h : pieces (t ++ ['\n']) = [.region kind t, .code '\n']) (r : Text) : Reads t ('\n' :: r) [.region kind t] := by
  cases t with
  | nil =>
    have hlen := congrArg List.length h
    rw [List.nil_append, pieces_code (regionTail?_of_isBlank (by decide) [])] at hlen
    simp at hlen
  | cons c u =>
    have hreg' := regionTail?_append_line (regionTail?_of_pieces h) r
    rw [Reads, List.cons_append, pieces_region hreg', List.take_left, List.drop_left]
    rfl

/-- The search for a unit goes over `x` in front of `r`, wherever it is. -/
def Passed (x r : Text) : Prop :=
  ∀ source before i, ∃ before', findUnit source before i (x ++ r) = findUnit source before' (i + x.length) r

section Passed

variable {x y r : Text} {c : Char}

theorem Passed.append (hx : Passed x (y ++ r)) (hy : Passed y r) : Passed (x ++ y) r := by
  intro source before i
  obtain ⟨b, hb⟩ := hx source before i
  obtain ⟨b', hb'⟩ := hy source b (i + x.length)
  exact ⟨b', by rw [List.append_assoc, hb, hb', List.length_append, Nat.add_assoc]⟩

/-- A blank is passed over. -/
theorem findUnit_blank (hc : isBlank c = true) (source : Text) (before : Char) (i : Nat) :
    findUnit source before i (c :: r) = findUnit source c (i + 1) r := by
  have hclass : (isQuote c || isOpener c) = false ∧ endsAmount c = false ∧ isWord c = false := by
    simp only [isBlank, Bool.or_eq_true, decide_eq_true_eq] at hc
    rcases hc with (((rfl | rfl) | rfl) | rfl) | rfl <;> decide
  have hno := (regionTail?_eq_none_iff.mp (regionTail?_of_isBlank hc r)).2
  rw [findUnit, if_neg (by simp [hclass.1]), hno]
  simp [hclass]

theorem passed_blank (hc : isBlank c = true) : Passed [c] r :=
  fun source before i => ⟨c, findUnit_blank hc source before i⟩

/-- A delimiter with what it encloses is passed over. -/
theorem passed_delimiter (hc : (isQuote c || isOpener c) = true)
    (h : closingOffset? (c :: (x ++ r)) = some x.length) : Passed (c :: x) r := by
  intro source before i
  refine ⟨(c :: (x ++ r).take x.length).getLast (by simp), ?_⟩
  rw [List.cons_append, findUnit, if_pos hc, h]
  simp [Nat.add_assoc]

theorem passed_region {kind : RegionKind} (h : Reads x r [.region kind x]) : Passed x r := by
  cases x with
  | nil => exact fun _ before i => ⟨before, rfl⟩
  | cons c x =>
    rw [Reads, List.cons_append] at h
    obtain ⟨n, hreg, hx, -⟩ := pieces_eq_region h
    have hle := lt_of_regionTail? hreg
    have hn : n = x.length := by
      have hlen := congrArg List.length hx
      simp only [List.length_cons, List.length_take] at hlen
      omega
    subst hn
    rcases regionTail?_cases hreg with ⟨-, hl⟩ | ⟨-, hcomment⟩
    · have hq := (literalTail?_eq_some_iff.mp hl).1
      refine passed_delimiter (by simp [hq]) ?_
      rw [literalTail?, if_pos hq] at hl
      rw [closingOffset?, if_pos hq, hl]
    · intro source before i
      have ho : isOpener c = false := by
        rw [Bool.eq_false_iff]
        intro ho
        rw [regionTail?_of_isOpener ho] at hreg
        cases hreg
      refine ⟨(c :: (x ++ r).take x.length).getLast (by simp), ?_⟩
      rw [List.cons_append, findUnit, if_neg (by simp [isQuote_of_commentTail? hcomment, ho]), hcomment]
      simp [Nat.add_assoc]

/-- A parenthesis around balanced pieces is passed over. -/
theorem passed_parenthesis {ps : List Piece} (h : Reads x (')' :: r) ps) (hn : nest [] ps = some []) :
    Passed ('(' :: (x ++ [')'])) r := by
  refine passed_delimiter (by decide) ?_
  have hclose : pieces (')' :: r) = .code ')' :: pieces r :=
    pieces_code (regionTail?_of_ne (by decide) (by decide) (by decide) (by decide) r)
  have hin : closingIn ([] ++ ['(']) (x ++ ')' :: r) = some x.length :=
    closingIn_iff.mpr ⟨ps, ')', pieces r, by rw [← hclose]; exact h, by rw [h.textOf_eq], hn, rfl⟩
  rw [closingOffset?, if_neg (by decide), if_pos (by decide), List.append_assoc, List.singleton_append]
  rw [List.nil_append] at hin
  simp [hin]

end Passed

/-- Behind what is passed over, the unit is found. -/
theorem findUnit_second {x : Text} (h : Passed x " second".toList) :
    findUnit (keyword ++ (x ++ " second".toList)) 'l' keyword.length (x ++ " second".toList) =
      .ok (.second, keyword.length + (x ++ [' ']).length, keyword.length + (x ++ [' ']).length + 6) := by
  have hword : ∀ (source : Text) (i : Nat), findUnit source ' ' i "second".toList = .ok (.second, i, i + 6) := by
    intro source i
    have hunits : unitsWithoutModifier.any (Text.same "second".toList) = false := by decide +kernel
    have hunit : TimeUnit.ofWord? "second".toList = some .second := by decide +kernel
    show findUnit source ' ' i ('s' :: "econd".toList) = _
    have hno : commentTail? 's' "econd".toList = none := rfl
    have htake : "econd".toList.takeWhile isWord = "econd".toList := by decide
    have hdrop : "econd".toList.dropWhile isWord = [] := by decide
    have hcons : 's' :: "econd".toList = "second".toList := rfl
    rw [findUnit, if_neg (by decide), hno]
    simp only [htake, hdrop, hcons, hunits, hunit]
    rfl
  obtain ⟨b, hb⟩ := h (keyword ++ (x ++ " second".toList)) 'l' keyword.length
  rw [hb]
  show findUnit _ b _ (' ' :: "second".toList) = _
  rw [findUnit_blank rfl, hword, List.length_append, List.length_singleton, Nat.add_assoc]

/-- The pieces of an amount with a region in it, in front of a line break. -/
theorem reads_around {kind : RegionKind} {t a b : Text} (ht : pieces (t ++ ['\n']) = [.region kind t, .code '\n'])
    (ha : isPlain a = true) (hb : isPlain ('\n' :: b) = true) (r : Text) :
    Reads (a ++ (t ++ '\n' :: b)) r (a.map .code ++ (.region kind t :: ('\n' :: b).map .code)) :=
  (reads_of_isPlain ha _).append ((reads_region_line ht (b ++ r)).append (reads_of_isPlain hb r))

/-- Does a literal or comment hold neither a parenthesis nor a dash? -/
def Harmless (t : Text) : Prop := ∀ c ∈ t, isCounted c = false

instance (t : Text) : Decidable (Harmless t) :=
  inferInstanceAs (Decidable (∀ c ∈ t, _))

/-- Does the code of an amount decide whether its term is refused, where each literal and comment of the amount is `t`
or harmless? -/
def CodeDecides (t : Text) : Prop :=
  ∀ (sign : Sign) (source : Text) (ps : List Piece), IsAmount source ps →
    (∀ kind u, .region kind u ∈ ps → u = t ∨ Harmless u) →
    (RefusedAsNested sign source ↔ NestsSubtraction (codeOf ps))

/-- If the code decides, an amount with the region `t` between the texts `a` and `b` is refused as its code has it. -/
theorem CodeDecides.amount {kind : RegionKind} {t a b : Text} (h : CodeDecides t)
    (ht : pieces (t ++ ['\n']) = [.region kind t, .code '\n']) (ha : isPlain (' ' :: a) = true)
    (hb : isPlain ('\n' :: b) = true) (hx : Passed (' ' :: a ++ (t ++ '\n' :: b)) " second".toList) :
    nestsSubtraction (a ++ (t ++ b)) = true ↔ NestsSubtraction (' ' :: a ++ '\n' :: b ++ [' ']) := by
  have hp := reads_around ht ha hb " second".toList
  generalize hxe : ' ' :: a ++ (t ++ '\n' :: b) = x at hx hp
  have hdrop : (keyword ++ (x ++ " second".toList)).drop keyword.length = x ++ " second".toList := List.drop_left
  have hk : startsKeyword keyword none (keyword ++ (x ++ " second".toList)) = true :=
    startsKeyword_of_lower_eq rfl rfl (by rw [← hxe]; rfl)
  have hcut : pieces (x ++ " second".toList) =
      (((' ' :: a).map .code ++ .region kind t :: ('\n' :: b).map .code) ++ [.code ' ']) ++ pieces "second".toList := by
    rw [hp, List.append_assoc _ [_]]
    exact congrArg _ (pieces_code (regionTail?_of_isBlank rfl _))
  have hamount : IsAmount (keyword ++ (x ++ " second".toList))
      (((' ' :: a).map .code ++ .region kind t :: ('\n' :: b).map .code) ++ [.code ' ']) := by
    have hu := findUnit_second hx
    have hbetween := piecesBetween_eq (by rw [hdrop, hcut]) (Eq.refl (keyword.length + (textOf _).length))
    rw [textOf_append, hp.textOf_eq] at hbetween
    exact ⟨none, .second, _, _, hk, by rw [hdrop, hu]; rfl, hbetween.symm⟩
  have hall := h .plus _ _ hamount fun k u hm => by
    simp only [List.mem_append, List.mem_map, List.mem_cons, reduceCtorEq, and_false, exists_false, false_or,
      or_false, Piece.region.injEq, List.not_mem_nil] at hm
    exact .inl hm.2
  have hsame : nestsSubtraction (a ++ (t ++ b)) = nestsSubtraction (x ++ [' ']) := by
    rw [← hxe]
    exact nestsSubtraction_congr (by simp [isCounted])
  have hcode : codeOf (((' ' :: a).map .code ++ .region kind t :: ('\n' :: b).map .code) ++ [.code ' ']) =
      ' ' :: a ++ '\n' :: b ++ [' '] := by
    simp only [codeOf_append, codeOf_region, codeOf_map_code]
    rfl
  rw [hamount.refused_iff.2, hcode, textOf_append, hp.textOf_eq] at hall
  rw [hsame]
  exact hall

/-- From one open parenthesis and from none a text leaves the same depth, if it never opens a second one and holds a
parenthesis at all. -/
theorem depth_of_nesting_le {t : Text} (h : nesting 1 t ≤ 1) (ht : ∃ c ∈ t, c = '(' ∨ c = ')') :
    t.foldl depthAfter 1 = t.foldl depthAfter 0 := by
  induction t with
  | nil => simp at ht
  | cons c t ih =>
    rw [nesting_cons] at h
    rw [List.foldl_cons, List.foldl_cons]
    by_cases ho : c = '('
    · -- a second one is opened
      have := le_nesting (depthAfter 1 c) t
      simp only [depthAfter, ho, if_true] at this h
      omega
    · by_cases hc : c = ')'
      · subst hc
        rfl
      · have hd : ∀ d, depthAfter d c = d := fun d => by simp [depthAfter, ho, hc]
        rw [hd, hd]
        rw [hd] at h
        refine ih (by omega) ?_
        obtain ⟨d, hd, hdc⟩ := ht
        rcases List.mem_cons.mp hd with rfl | hd
        · exact absurd hdc (by simp [ho, hc])
        · exact ⟨d, hd, hdc⟩

theorem nestsSubtraction_iff_of_dash {a : Text} (h : '-' ∈ a) : nestsSubtraction a = true ↔ 1 < nesting 0 a := by
  simp [nestsSubtraction, h]

/-- A region that is not harmless stands in an amount that is refused otherwise than its code has it. -/
theorem harmless_of_codeDecides {kind : RegionKind} {t : Text}
    (ht : pieces (t ++ ['\n']) = [.region kind t, .code '\n']) (h : CodeDecides t) : Harmless t := by
  have hblank : ∀ {c : Char} {y r : Text}, isBlank c = true → Passed y r → Passed (c :: y) r :=
    fun hc hy => Passed.append (x := [_]) (passed_blank hc) hy
  have hregion : ∀ r, Passed t ('\n' :: r) := fun r => passed_region (reads_region_line ht r)
  have hpar : ∀ {x : Text}, isPlain x = true → nest [] (x.map .code) = some [] → ∀ r,
      Passed ('(' :: (x ++ [')'])) r := fun hx hn r => passed_parenthesis (reads_of_isPlain hx _) hn
  have haround : ∀ {a b : Text}, isPlain a = true → isPlain ('\n' :: b) = true →
      nest [] (a.map .code ++ .region kind t :: ('\n' :: b).map .code) = some [] → ∀ r,
      Passed ('(' :: ((a ++ (t ++ '\n' :: b)) ++ [')'])) r :=
    fun ha hb hn r => passed_parenthesis (reads_around ht ha hb _) hn
  -- the region behind nested parentheses, within one, in front of one in another, and in front of one
  have hbehind := h.amount (a := "((a))".toList) (b := []) ht (by decide) (by decide)
    (hblank rfl (Passed.append (hpar (x := "(a)".toList) (by decide) (by decide) _)
      (Passed.append (hregion _) (passed_blank rfl))))
  have hwithin := h.amount (a := "(a-b ".toList) (b := [')']) ht (by decide) (by decide)
    (hblank rfl (by simpa using haround (a := "a-b ".toList) (b := []) (by decide) (by decide) rfl _))
  have hinner := h.amount (a := ['(']) (b := "(a-b))".toList) ht (by decide) (by decide)
    (hblank rfl (by simpa using haround (a := []) (b := "(a-b)".toList) (by decide) (by decide) rfl _))
  have hfront := h.amount (a := []) (b := "(a-b)".toList) ht (by decide) (by decide)
    (hblank (y := t ++ '\n' :: "(a-b)".toList) rfl
      (Passed.append (hregion _) (hblank rfl (hpar (x := "a-b".toList) (by decide) (by decide) _))))
  have hno : ¬ 1 < nesting 0 ("(a-b ".toList ++ (t ++ [')'])) := fun hn =>
    absurd (hwithin.mp ((nestsSubtraction_iff_of_dash (by simp)).mpr hn)) (by decide)
  have hyes : 1 < nesting 0 (['('] ++ (t ++ "(a-b))".toList)) :=
    (nestsSubtraction_iff_of_dash (by simp)).mp (hinner.mpr (by decide))
  have hno' : ¬ 1 < nesting 0 (t ++ "(a-b)".toList) := fun hn =>
    absurd (hfront.mp ((nestsSubtraction_iff_of_dash (by simp)).mpr hn)) (by decide)
  simp only [nesting_append] at hno hyes hno'
  have hsub : ∀ d, d + 1 ≤ nesting d "(a-b)".toList ∧ nesting d "(a-b))".toList ≤ d + 1 := fun d => by
    have h₁ : "(a-b)".toList = ['(', 'a', '-', 'b', ')'] := rfl
    have h₂ : "(a-b))".toList = ['(', 'a', '-', 'b', ')', ')'] := rfl
    simp [h₁, h₂, nesting]
  intro c hc
  rw [Bool.eq_false_iff]
  intro hcounted
  by_cases hdash : '-' ∈ t
  · refine absurd (hbehind.mp ((nestsSubtraction_iff_of_dash (by simp [hdash])).mpr ?_)) (by decide)
    rw [nesting_append]
    exact Nat.lt_of_lt_of_le (by decide) (Nat.le_max_left _ _)
  · have hc' : c = '(' ∨ c = ')' := by
      simp only [isCounted, Bool.or_eq_true, decide_eq_true_eq] at hcounted
      exact hcounted.resolve_right fun e => hdash (e ▸ hc)
    have hone : "(a-b ".toList.foldl depthAfter 0 = 1 := rfl
    have hone' : ['('].foldl depthAfter 0 = 1 := rfl
    rw [hone] at hno
    rw [hone'] at hyes
    have hsame := depth_of_nesting_le (t := t) (by omega) ⟨c, hc, hc'⟩
    have := hsub (t.foldl depthAfter 0)
    have := hsub (t.foldl depthAfter 1)
    have hopen : nesting 0 ['('] = 1 := rfl
    omega

/-- **The code decides** whether a term is refused exactly where no literal or comment of its amount holds a parenthesis
or a dash. Such literals and comments may then be replaced by others of the kind. -/
theorem nested_iff_code {kind : RegionKind} {t : Text} (ht : pieces (t ++ ['\n']) = [.region kind t, .code '\n']) :
    (CodeDecides t ↔ Harmless t) ∧
      (Harmless t → ∀ (sign : Sign) (source source' : Text) (ps ps' : List Piece), IsAmount source ps →
        IsAmount source' ps' → (∀ kind u, .region kind u ∈ ps ++ ps' → u = t ∨ Harmless u) → codeOf ps = codeOf ps' →
        (RefusedAsNested sign source ↔ RefusedAsNested sign source')) := by
  have hdecides : Harmless t → CodeDecides t := fun h sign source ps hamount hregions => by
    obtain ⟨hnest, hrefused⟩ := hamount.refused_iff
    rw [hrefused]
    exact nestsSubtraction_iff hnest fun kind u hm => (hregions kind u hm).elim (fun e => e ▸ h) id
  refine ⟨⟨harmless_of_codeDecides ht, hdecides⟩, fun h sign source source' ps ps' hps hps' hregions hcode => ?_⟩
  have hleft : ∀ kind u, .region kind u ∈ ps → u = t ∨ Harmless u :=
    fun kind u hm => hregions kind u (List.mem_append_left _ hm)
  have hright : ∀ kind u, .region kind u ∈ ps' → u = t ∨ Harmless u :=
    fun kind u hm => hregions kind u (List.mem_append_right _ hm)
  calc RefusedAsNested sign source ↔ NestsSubtraction (codeOf ps) := hdecides h sign source ps hps hleft
    _ ↔ NestsSubtraction (codeOf ps') := by rw [hcode]
    _ ↔ RefusedAsNested sign source' := (hdecides h sign source' ps' hps' hright).symm

/-- The dash in a comment gets a term refused; without it the term is read. -/
theorem nested_by_comment :
    let source := "interval f(g(x)) /* a-b */ second".toList
    let source' := "interval f(g(x)) /* a b */ second".toList
    let ps : List Piece := " f(g(x)) ".toList.map .code ++ [.region .comment "/* a-b */".toList, .code ' ']
    let ps' : List Piece := " f(g(x)) ".toList.map .code ++ [.region .comment "/* a b */".toList, .code ' ']
    IsAmount source ps ∧ IsAmount source' ps' ∧ codeOf ps = codeOf ps' ∧ ¬ NestsSubtraction (codeOf ps) ∧
      RefusedAsNested .plus source ∧ ¬ CodeDecides "/* a-b */".toList ∧
      CodeDecides "/* a b */".toList ∧ ¬ RefusedAsNested .plus source' ∧
      (convert ("select t + ".toList ++ source)).toOption = none ∧
      convert ("select t + ".toList ++ source') = .ok "select datetime(t, (f(g(x)) /* a b */) || ' seconds')".toList := by
  intro source source' ps ps'
  have hamount : IsAmount source ps :=
    ⟨none, .second, 27, 33, by decide +kernel, eq_ok_of_toOption (by decide +kernel), by decide +kernel⟩
  have hamount' : IsAmount source' ps' :=
    ⟨none, .second, 27, 33, by decide +kernel, eq_ok_of_toOption (by decide +kernel), by decide +kernel⟩
  have hcode : codeOf ps = codeOf ps' := by decide +kernel
  have hnests : ¬ NestsSubtraction (codeOf ps) := by decide +kernel
  obtain ⟨hiff, -⟩ := @nested_iff_code .comment "/* a-b */".toList (by decide +kernel)
  obtain ⟨hiff', -⟩ := @nested_iff_code .comment "/* a b */".toList (by decide +kernel)
  have hdecides := hiff'.mpr (by decide)
  have hrefused : RefusedAsNested .plus source := hamount.refused_iff.2.mpr (by decide +kernel)
  have hrefused' := hdecides .plus source' ps' hamount' fun kind u hm => by
    have : u = "/* a b */".toList := by simp [ps'] at hm; exact hm.2
    exact .inl this
  rw [← hcode] at hrefused'
  refine ⟨hamount, hamount', hcode, hnests, hrefused, fun h => absurd (hiff.mp h) (by decide), hdecides,
    fun h => hnests (hrefused'.mp h), by decide +kernel, eq_ok_of_toOption (by decide +kernel)⟩

end SqlDialect.Interval
