import SqlDialect.Proofs.Qualifier
import SqlDialect.Proofs.Interval.Decomposition
import SqlDialect.Proofs.Interval.Level
import SqlDialect.Proofs.Interval.Local

/-!
# The signs of an interval expression

Every term of an interval expression has a sign. The signs of further terms are found by walking over blanks and
comments, so they are code. The first sign is found by walking to the left over blanks only. If a comment ends there,
its last character is taken.

* `signPositions`: where the signs stand that are taken.
* `signs_code_iff`: they are all code exactly if no comment ends in front of the first keyword.
-/

namespace SqlDialect.Interval

/-! ## Where the signs stand -/

/-- The positions of the signs of the further terms that are read from position `i` on. -/
def furtherSigns (text : Text) (i : Nat) : List Nat :=
  match _h : nextSign? (text.drop i) with
  | none => []
  | some (sign, skipped) =>
    match readTerm sign (text.drop (i + skipped)) with
    | .error _ => []
    | .ok (_, n) => (i + triviaLength (text.drop i)) :: furtherSigns text (i + skipped + n)
termination_by text.length - i
decreasing_by
  have := nextSign?_pos _h
  rw [List.length_drop] at this
  omega

/-- The positions of the signs of the terms whose first keyword stands at position `kw`. -/
def signPositions (text : Text) (kw : Nat) : List Nat :=
  match readSign text kw with
  | .error _ => []
  | .ok (sign, signAt) =>
    match readTerm sign (text.drop kw) with
    | .error _ => []
    | .ok (_, n) => signAt :: furtherSigns text (kw + n)

/-- A comment ends in front of position `kw`, with nothing but blanks between. -/
def FollowsComment (text : Text) (kw : Nat) : Prop :=
  ∃ r ∈ regions text, r.kind = .comment ∧ r.stop ≤ kw ∧ ∀ c ∈ Text.slice text r.stop kw, isBlank c = true

/-! ## Further signs -/

/-- The signs of further terms are code. -/
theorem furtherSigns_code {T : Text} {i m : Nat} {FX : List Piece} {ts : List Term}
    (hp : pieces T = FX ++ pieces (T.drop i)) (hi : (textOf FX).length = i)
    (h : readChain (T.drop i) = .ok (ts, m)) :
    (furtherSigns T i).map (T[·]?) = ts.map (fun t => some t.sign.char) ∧
      ∀ p ∈ furtherSigns T i, regionAt? (regions T) p = none := by
  fun_induction furtherSigns T i generalizing FX ts m with
  | case1 i hs =>
    rw [readChain_of_none hs] at h
    cases h
    exact ⟨rfl, by simp⟩
  | case2 i sign skipped hs e he =>
    rw [readChain_of_some hs, List.drop_drop, he] at h
    cases h
  | case3 i sign skipped hs t n ht ih =>
    rw [readChain_of_some hs, List.drop_drop, ht] at h
    simp only [List.drop_drop, ← Nat.add_assoc] at h
    split at h
    · cases h
    · next ts' k hc =>
      simp only [Except.ok.injEq, Prod.mk.injEq] at h
      obtain ⟨rfl, -⟩ := h
      obtain ⟨ds, es, hq, htrivia, hlen, -, -, hk⟩ := nextSign?_pieces hs
      rw [List.drop_drop] at hq hk
      obtain ⟨qs, hterm, hn, -, -⟩ := readTerm_pieces hk ht
      rw [List.drop_drop] at hterm
      obtain rfl := sign_of_readTerm ht
      have hcut : pieces T = (FX ++ ds) ++ .code t.sign.char :: (es ++ pieces (T.drop (i + skipped))) := by
        rw [hp, hq, List.append_assoc]
      have hat := code_at hcut (by rw [textOf_append, List.length_append, hi, htrivia])
      have hnext : pieces T = (FX ++ ds ++ .code t.sign.char :: (es ++ qs)) ++ pieces (T.drop (i + skipped + n)) := by
        rw [hcut, hterm]
        simp
      obtain ⟨hchars, hcode⟩ := ih hnext (by simp [Piece.text]; omega) hc
      refine ⟨by rw [List.map_cons, List.map_cons, hat.1, hchars], fun p hm => ?_⟩
      rcases List.mem_cons.mp hm with rfl | hm
      · exact hat.2
      · exact hcode p hm

/-! ## The first sign -/

/-- Only blanks stand between the first sign and the keyword. -/
theorem blank_of_between {T : Text} {kw signAt i : Nat} {sign : Sign} {c : Char}
    (hs : readSign T kw = .ok (sign, signAt)) (hkw : kw ≤ T.length) (h : signAt < i) (hi : i < kw)
    (hc : T[i]? = some c) : isBlank c = true := by
  obtain ⟨-, blanks, hblanks, hdrop⟩ := readSign_drop hs
  obtain ⟨j, rfl⟩ : ∃ j, i = signAt + (j + 1) := ⟨i - signAt - 1, by omega⟩
  have hlen := congrArg List.length hdrop
  simp only [List.length_drop, List.length_cons, List.length_append] at hlen
  rw [← List.getElem?_drop, hdrop, List.getElem?_cons_succ, List.getElem?_append_left (by omega)] at hc
  exact hblanks c (List.mem_of_getElem? hc)

/-- A region that ends in front of the keyword, with only blanks between, covers the sign. -/
theorem covers_sign {T : Text} {kw signAt : Nat} {sign : Sign} {r : Region} (hs : readSign T kw = .ok (sign, signAt))
    (hkw : kw ≤ T.length) (hr : r ∈ regions T) (hstop : r.stop ≤ kw)
    (hblank : ∀ c ∈ Text.slice T r.stop kw, isBlank c = true) : r.covers signAt = true := by
  obtain ⟨-, blanks, -, hdrop⟩ := readSign_drop hs
  obtain ⟨ms, t, ns, hms, hstart, hrstop⟩ := mem_regionsFrom.mp hr
  obtain ⟨d, hd, hspace⟩ := head_of_region (show Piece.region r.kind t ∈ pieces T by rw [hms]; simp)
  have hpos : 0 < t.length := List.length_pos_iff.mpr fun e => by rw [e] at hd; cases hd
  have hfirst : T[r.start]? = some d := by
    have hmark : T = textOf ms ++ (t ++ textOf ns) := by
      rw [← textOf_pieces T, hms, textOf_append, textOf_cons]
      rfl
    conv => lhs; rw [hmark, hstart, Nat.zero_add]
    rw [List.getElem?_append_right (Nat.le_refl _), Nat.sub_self, List.getElem?_append_left hpos,
      ← List.head?_eq_getElem?, hd]
  have hleft : r.start ≤ signAt := Nat.le_of_not_lt fun hlt => by
    rw [isSpace_of_isBlank (blank_of_between hs hkw hlt (by omega) hfirst)] at hspace
    cases hspace
  have hright : signAt < r.stop := Nat.lt_of_not_le fun hle => by
    have hlt : signAt < kw := by
      have := congrArg List.length hdrop
      simp only [List.length_drop, List.length_cons, List.length_append] at this
      omega
    have hmem : sign.char ∈ Text.slice T r.stop kw := by
      refine List.mem_of_getElem? (i := signAt - r.stop) ?_
      rw [Text.slice, List.getElem?_drop, Nat.add_sub_cancel' hle, List.getElem?_take_of_lt hlt, ← List.head?_drop, hdrop]
      rfl
    have hsign := hblank _ hmem
    cases sign <;> cases hsign
  simp [Region.covers, hleft, hright]

/-- A comment over the sign ends in front of the keyword, with only blanks between. -/
theorem followsComment_of_sign {T t : Text} {kw signAt : Nat} {sign : Sign} {FJ rest : List Piece}
    (hs : readSign T kw = .ok (sign, signAt)) (hkw : kw ≤ T.length) (hp : pieces T = FJ ++ .region .comment t :: rest)
    (hlt : signAt < (textOf FJ).length + t.length) (hle : (textOf FJ).length + t.length ≤ kw) :
    FollowsComment T kw := by
  refine ⟨⟨.comment, (textOf FJ).length, (textOf FJ).length + t.length⟩, ?_, rfl, hle, fun c hc => ?_⟩
  · exact mem_regionsFrom.mpr ⟨FJ, t, rest, hp, by simp, rfl⟩
  · obtain ⟨j, hj⟩ := List.mem_iff_getElem?.mp hc
    simp only [Text.slice, List.getElem?_drop] at hj
    have hbefore : (textOf FJ).length + t.length + j < kw := by
      have := (List.getElem?_eq_some_iff.mp hj).1
      rw [List.length_take] at this
      omega
    rw [List.getElem?_take_of_lt hbefore] at hj
    exact blank_of_between hs hkw (by omega) hbefore hj

/-- The first sign is code exactly if no comment ends in front of the keyword. -/
theorem first_sign_iff {T : Text} {kw signAt : Nat} {sign : Sign} {FS : List Piece} {b : Option Char}
    (hp : pieces T = FS ++ pieces (T.drop kw)) (hl : (textOf FS).length = kw)
    (hk : startsKeyword keyword b (T.drop kw) = true) (hs : readSign T kw = .ok (sign, signAt)) :
    T[signAt]? = some sign.char ∧ (regionAt? (regions T) signAt = none ↔ ¬ FollowsComment T kw) := by
  obtain ⟨-, blanks, -, hdrop⟩ := readSign_drop hs
  have hkw : kw ≤ T.length := by
    conv => rhs; rw [← textOf_pieces T, hp, textOf_append, List.length_append]
    omega
  refine ⟨by rw [← List.head?_drop, hdrop]; rfl, fun hcode ⟨r, hr, _, hstop, hbl⟩ => ?_, fun hno => ?_⟩
  · exact List.find?_eq_none.mp hcode r hr (covers_sign hs hkw hr hstop hbl)
  · obtain ⟨-, FJ, M, rfl, -, -, -, hcases⟩ := readSign_pieces hp hl hs
    rw [List.append_assoc] at hp
    rcases hcases with hcases | ⟨t, M', rfl, h1, h2⟩
    · obtain ⟨blanks, -, rfl⟩ := pieces_of_sign hp hcases hk hs
      exact (code_at hp hcases).2
    · refine absurd (followsComment_of_sign hs hkw hp h2 ?_) hno
      rw [← hl, textOf_append, textOf_cons, List.length_append, List.length_append, Piece.text]
      omega

/-! ## All signs -/

/-- **The signs are code** exactly if no comment ends in front of the first keyword. Those of further terms always
are. -/
theorem signs_code_iff {T : Text} {kw : Nat} {e : Expression} (hcode : regionAt? (regions T) kw = none)
    (hk : startsKeyword keyword (T.take kw).getLast? (T.drop kw) = true) (h : locate T kw = .ok e) :
    (signPositions T kw).map (T[·]?) = e.terms.map (fun t => some t.sign.char) ∧
      (∀ p ∈ (signPositions T kw).tail, regionAt? (regions T) p = none) ∧
      ((∀ p ∈ signPositions T kw, regionAt? (regions T) p = none) ↔ ¬ FollowsComment T kw) := by
  obtain ⟨FS, hp, hl⟩ := cut_of_keyword hcode hk
  obtain ⟨sign, signAt, base, n, hsign, -, hts, -⟩ := locate_ok h
  obtain ⟨t, m, ts', k, ht, hc, hterms, -⟩ := readTerms_ok hts
  obtain ⟨qs, hq, hm, -, -⟩ := readTerm_pieces hk ht
  obtain rfl := sign_of_readTerm ht
  rw [List.drop_drop] at hq hc
  have hnext : pieces T = (FS ++ qs) ++ pieces (T.drop (kw + m)) := by rw [hp, hq, List.append_assoc]
  obtain ⟨hfirst, hiff⟩ := first_sign_iff hp hl hk hsign
  obtain ⟨hchars, hfurther⟩ := furtherSigns_code hnext (by rw [textOf_append, List.length_append, hl, hm]) hc
  have hpositions : signPositions T kw = signAt :: furtherSigns T (kw + m) := by
    simp only [signPositions, hsign, ht]
  rw [hpositions, hterms, List.map_cons, List.map_cons, hfirst, hchars, List.tail_cons]
  refine ⟨rfl, hfurther, ?_⟩
  rw [← hiff, List.forall_mem_cons]
  exact and_iff_left hfurther

/-- The last character of a comment in front of the keyword is taken for the sign. -/
theorem signs_code_iff_comment :
    let T := "select t # note -\ninterval 1 second + interval 2 day".toList
    let e : Expression := ⟨"t".toList, [⟨.minus, "1".toList, .second⟩, ⟨.plus, "2".toList, .day⟩], 7, 52⟩
    regionAt? (regions T) 18 = none ∧ startsKeyword keyword (T.take 18).getLast? (T.drop 18) = true ∧
      locate T 18 = .ok e ∧ signPositions T 18 = [16, 36] ∧ regionAt? (regions T) 36 = none ∧
      regionAt? (regions T) 16 = some ⟨.comment, 9, 17⟩ ∧ FollowsComment T 18 := by
  intro T e
  have hcode : regionAt? (regions T) 18 = none := by decide +kernel
  have hkeyword : startsKeyword keyword (T.take 18).getLast? (T.drop 18) = true := by decide +kernel
  have hlocate : locate T 18 = .ok e := eq_ok_of_toOption (by decide +kernel)
  have hpositions : signPositions T 18 = [16, 36] := by decide +kernel
  have hcomment : regionAt? (regions T) 16 = some ⟨.comment, 9, 17⟩ := by decide +kernel
  obtain ⟨-, hfurther, hiff⟩ := signs_code_iff hcode hkeyword hlocate
  rw [hpositions] at hfurther hiff
  refine ⟨hcode, hkeyword, hlocate, hpositions, hfurther 36 (by simp), hcomment, ?_⟩
  refine Classical.byContradiction fun hno => ?_
  have hnone := hiff.mpr hno 16 List.mem_cons_self
  rw [hcomment] at hnone
  cases hnone

end SqlDialect.Interval
