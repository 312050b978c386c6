import SqlDialect.Proofs.Interval.Amounts
import SqlDialect.Proofs.Interval.Run
import SqlDialect.Proofs.Source

/-!
# Refusals of interval expressions

An expression is rewritten with copies of its base and its amounts. What stands behind it has not been touched, so a
refusal that points into this points into the statement. Only a missing sign and an unbalanced base point further back,
into what has been written already.

* `locate_error`: where the fragment of a refusal stands in the text that has been reached.
* `le_refusedAt`: where the cause points ahead, this is behind all that has been written.
* `convertFrom_step`: the steps with sources are those of the conversion.
* `exists_sound`: all that is copied is a part of the statement, and a refusal that points ahead points into it.
-/

namespace SqlDialect.Interval

/-! ## The places in the text -/

/-- The first positions of the terms that are read from position `kw` on. A term that is refused is the last one. -/
def termStarts (text : Text) (kw : Nat) : List Nat :=
  match readTerm .plus (text.drop kw) with
  | .error _ => [kw]
  | .ok (_, n) =>
    match _h : nextSign? (text.drop (kw + n)) with
    | none => [kw]
    | some (_, skipped) => kw :: termStarts text (kw + n + skipped)
termination_by text.length - kw
decreasing_by
  have := nextSign?_pos _h
  rw [List.length_drop] at this
  omega

/-- Where the amount of the term stands whose keyword is at position `kw`. -/
def amountStart (text : Text) (kw : Nat) : Nat := behindSpaces text (kw + keyword.length)

/-- Where the base of the expression stands whose first keyword is at position `kw`. -/
def baseAt (text : Text) (kw : Nat) : Nat :=
  match readSign text kw with
  | .error _ => 0
  | .ok (_, signAt) =>
    match readBase text signAt (kw + keyword.length) with
    | .error _ => 0
    | .ok base => base.start

/-- Where the fragment of a refusal stands: at the start of a term, or so that it ends behind the sign or behind the
keyword. -/
def refusedAt (text : Text) (kw : Nat) (e : StageError) : Nat :=
  if isOfTerm e.cause then (termStarts text kw).getLast?.getD kw
  else if e.cause = .baseUnbalanced then ((text.take kw).reverse.dropWhile isBlank).length - e.fragment.length
  else kw + keyword.length - e.fragment.length

/-! ## The steps with their sources -/

/-- What is written of the terms behind the base, with copies of the amounts at the given positions. -/
def sourcedTerms (M : List Sourced) : List Term → List Nat → List Sourced
  | t :: ts, a :: as =>
    added ([',', ' '] ++ textOf t.front) ++ (copied M a t.amount ++
      (added (textOf t.back ++ ([' ', '|', '|', ' ', '\'', ' '] ++ (t.unit.plural ++ ['\'']))) ++ sourcedTerms M ts as))
  | _, _ => added [')']

/-- What is written for the expression whose first keyword stands at position `kw`. -/
def sourcedCall (M : List Sourced) (kw : Nat) (e : Expression) : List Sourced :=
  added opening ++ (copied M (baseAt (charsOf M) kw) e.base ++
    sourcedTerms M e.terms ((termStarts (charsOf M) kw).map (amountStart (charsOf M))))

/-- One step of the conversion. -/
def step (done rest : List Sourced) : Outcome :=
  match findKeyword keyword (charsOf done).getLast? (charsOf rest) with
  | none => .finished (done ++ rest)
  | some n =>
    let kw := done.length + n
    match locate (charsOf (done ++ rest)) kw with
    | .error e => .refused ⟨e.cause, copied (done ++ rest) (refusedAt (charsOf (done ++ rest)) kw e) e.fragment⟩
    | .ok e => .next ((done ++ rest).take e.start ++ sourcedCall (done ++ rest) kw e) ((done ++ rest).drop e.stop)

/-! ## What is copied -/

theorem slice_at (text : Text) (i j : Nat) : Text.slice text i j <+: text.drop i := by
  rw [Text.slice, List.drop_take]
  exact List.take_prefix _ _

/-- The amount of a term stands behind the keyword and spaces. -/
theorem amount_at {T : Text} {s n : Nat} {sign : Sign} {t : Term} (h : readTerm sign (T.drop s) = .ok (t, n)) :
    t.amount <+: T.drop (amountStart T s) := by
  obtain ⟨start, -, hamount, hne, -⟩ := readTerm_ok h
  have hslice := slice_at (T.drop s) keyword.length start
  rw [List.drop_drop] at hslice
  rw [hamount] at hne ⊢
  exact trim_at hslice hne

/-- The amounts of the terms stand where they are copied from. -/
theorem amounts_at {T : Text} {kw m : Nat} {sign : Sign} {ts : List Term}
    (h : readTerms sign (T.drop kw) = .ok (ts, m)) :
    List.Forall₂ (fun t a => t.amount <+: T.drop a) ts ((termStarts T kw).map (amountStart T)) := by
  fun_induction termStarts T kw generalizing sign ts m with
  | case1 kw e he =>
    obtain ⟨t, n, ts', k, ht, -⟩ := readTerms_ok h
    rw [readTerm_sign ht .plus] at he
    cases he
  | case2 kw t₀ n hplus hs =>
    obtain ⟨t, n', ts', k, ht, hc, rfl, -⟩ := readTerms_ok h
    rw [readTerm_sign ht .plus, Except.ok.injEq, Prod.mk.injEq] at hplus
    rw [List.drop_drop, hplus.2, readChain_of_none hs] at hc
    cases hc
    exact .cons (amount_at ht) .nil
  | case3 kw t₀ n hplus sign' skipped hs ih =>
    obtain ⟨t, n', ts', k, ht, hc, rfl, -⟩ := readTerms_ok h
    rw [readTerm_sign ht .plus, Except.ok.injEq, Prod.mk.injEq] at hplus
    rw [List.drop_drop, hplus.2] at hc
    obtain ⟨k', hread⟩ := readTerms_of_readChain hs hc
    rw [List.drop_drop] at hread
    exact .cons (amount_at ht) (ih hread)

/-- With copies of the amounts the terms are written as before. -/
theorem charsOf_sourcedTerms {M : List Sourced} {ts : List Term} {as : List Nat}
    (h : List.Forall₂ (fun t a => t.amount <+: (charsOf M).drop a) ts as) :
    charsOf (sourcedTerms M ts as) = writtenTerms ts := by
  induction h with
  | nil => rfl
  | @cons t a ts as hta _ ih =>
    have hvalue : t.value = textOf t.front ++ (t.amount ++ textOf t.back) := by
      unfold Term.value Term.front Term.back
      by_cases hnum : isNumeral t.amount = true
      · simp [hnum, Piece.text]
      · cases t.sign <;> cases isToken t.amount <;> simp [hnum, Piece.text]
    rw [sourcedTerms]
    simp only [charsOf_append, charsOf_added, charsOf_copied hta, ih]
    simp [writtenTerms, Term.modifier, hvalue]

theorem base_at {T : Text} {kw : Nat} {e : Expression} (h : locate T kw = .ok e) : e.base <+: T.drop (baseAt T kw) := by
  obtain ⟨sign, signAt, base, n, hsign, hbase, -, hb, -⟩ := locate_ok h
  obtain ⟨-, -, -, htext, -⟩ := readBase_ok hbase
  rw [hb, htext, baseAt, hsign]
  simp only [hbase]
  exact slice_at ..

/-- With copies of the base and the amounts an expression is written as before. -/
theorem charsOf_sourcedCall {M : List Sourced} {kw : Nat} {e : Expression} (h : locate (charsOf M) kw = .ok e) :
    charsOf (sourcedCall M kw e) = e.render := by
  obtain ⟨sign, signAt, base, n, -, -, hts, -⟩ := locate_ok h
  simp only [sourcedCall, charsOf_append, charsOf_added, charsOf_copied (base_at h),
    charsOf_sourcedTerms (amounts_at hts), render_eq, List.append_assoc]

/-! ## What is refused -/

theorem findUnit_error {source : Text} {before : Char} {i : Nat} {rest : Text} {e : StageError}
    (h : findUnit source before i rest = .error e) :
    isOfTerm e.cause = true ∧ ∃ k, i ≤ k ∧ e.fragment = source.take k := by
  fun_induction findUnit source before i rest with
  | case1 _ i | case5 _ i =>
    cases h
    exact ⟨rfl, i, Nat.le_refl i, rfl⟩
  | case2 _ i =>
    cases h
    exact ⟨rfl, i + 1, Nat.le_succ i, rfl⟩
  | case3 _ _ _ _ _ _ _ ih | case4 _ _ _ _ _ _ _ ih | case10 _ _ _ _ _ _ _ _ ih =>
    obtain ⟨hcause, k, hk, hfragment⟩ := ih h
    exact ⟨hcause, k, by omega, hfragment⟩
  | case6 _ i _ _ _ _ _ _ word _ wordStop _ ih | case9 _ i _ _ _ _ _ _ word _ wordStop _ _ _ ih =>
    have hle : i ≤ wordStop := Nat.le_add_right _ _
    obtain ⟨hcause, k, hk, hfragment⟩ := ih h
    exact ⟨hcause, k, by omega, hfragment⟩
  | case7 _ i _ _ _ _ _ _ word _ wordStop =>
    cases h
    exact ⟨rfl, wordStop, Nat.le_add_right _ _, rfl⟩
  | case8 => cases h

theorem readTerm_error {sign : Sign} {source : Text} {e : StageError} (h : readTerm sign source = .error e) :
    isOfTerm e.cause = true ∧ ∃ k, 0 < k ∧ e.fragment = source.take k := by
  have hpos : 0 < keyword.length := List.length_pos_iff.mpr keyword_ne_nil
  unfold readTerm at h
  split at h
  · next e' hu =>
    cases h
    obtain ⟨hcause, k, hk, hfragment⟩ := findUnit_error hu
    exact ⟨hcause, k, by omega, hfragment⟩
  · next unit start stop hu =>
    have hlt := findUnit_lt hu
    simp only at h
    split at h
    · cases h
      exact ⟨rfl, stop, by omega, rfl⟩
    · split at h
      · cases h
        exact ⟨rfl, stop, by omega, rfl⟩
      · cases h

theorem readTerms_of_readChain_error {text : Text} {sign : Sign} {skipped : Nat} {e : StageError}
    (hs : nextSign? text = some (sign, skipped)) (h : readChain text = .error e) :
    readTerms sign (text.drop skipped) = .error e := by
  rw [readChain_of_some hs] at h
  rw [readTerms]
  cases ht : readTerm sign (text.drop skipped) with
  | error e' =>
    simp only [ht] at h ⊢
    exact h
  | ok tn =>
    obtain ⟨t, n⟩ := tn
    simp only [ht, List.drop_drop] at h ⊢
    cases hc : readChain (text.drop (skipped + n)) with
    | error e' =>
      simp only [hc] at h ⊢
      exact h
    | ok ts =>
      simp only [hc] at h
      cases h

/-- A term that is refused is the last one that is read, and the fragment starts with it. -/
theorem readTerms_error {T : Text} {kw : Nat} {sign : Sign} {e : StageError} (hne : T.drop kw ≠ [])
    (h : readTerms sign (T.drop kw) = .error e) :
    isOfTerm e.cause = true ∧ ∃ s, (termStarts T kw).getLast? = some s ∧ kw ≤ s ∧ e.fragment ≠ [] ∧
      e.fragment <+: T.drop s := by
  have hterm : ∀ {s : Nat} {sign : Sign} {e : StageError}, T.drop s ≠ [] → readTerm sign (T.drop s) = .error e →
      isOfTerm e.cause = true ∧ e.fragment ≠ [] ∧ e.fragment <+: T.drop s := fun hs he => by
    obtain ⟨hcause, k, hk, hfragment⟩ := readTerm_error he
    rw [hfragment]
    refine ⟨hcause, fun hnil => ?_, List.take_prefix _ _⟩
    rcases List.take_eq_nil_iff.mp hnil with h0 | h0
    · omega
    · exact hs h0
  fun_induction termStarts T kw generalizing sign e with
  | case1 kw e' he' =>
    unfold readTerms at h
    split at h
    · next he =>
      cases h
      obtain ⟨hcause, hfragment⟩ := hterm hne he
      exact ⟨hcause, kw, rfl, Nat.le_refl kw, hfragment⟩
    · next ht =>
      rw [readTerm_sign ht .plus] at he'
      cases he'
  | case2 kw t₀ n hplus hs =>
    rw [readTerms, readTerm_sign hplus sign] at h
    simp only [List.drop_drop, readChain_of_none hs] at h
    cases h
  | case3 kw t₀ n hplus sign' skipped hs ih =>
    obtain ⟨ds, es, hgap, -, hlen, -, -, hk⟩ := nextSign?_pieces hs
    rw [readTerms, readTerm_sign hplus sign] at h
    simp only [List.drop_drop] at h
    split at h
    · next he =>
      cases h
      have hread := readTerms_of_readChain_error hs he
      rw [List.drop_drop] at hread
      have hne' : T.drop (kw + n + skipped) ≠ [] := fun hnil => by
        rw [List.drop_drop, hnil] at hk
        have := starts_length (starts_of_startsKeyword hk)
        exact keyword_ne_nil (List.length_eq_zero_iff.mp (Nat.le_zero.mp this))
      obtain ⟨hcause, s, hlast, hle, hfragment⟩ := ih hne' hread
      refine ⟨hcause, s, ?_, by omega, hfragment⟩
      rw [List.getLast?_cons, hlast]
      rfl
    · cases h

/-- A delimiter that is refused stands in front of the sign. -/
theorem boundaryBefore_error {T : Text} {i j : Nat} (h : boundaryBefore (marksBefore T i) = .error j) : j < i := by
  have hlt : ∀ before : List Mark, boundaryBefore before = .error j → j < before.length := fun before h => by
    fun_induction boundaryBefore before with
    | case1 | case6 | case7 => cases h
    | case2 _ _ ih | case8 _ _ _ _ _ _ ih =>
      have := ih h
      simp only [List.length_cons]
      omega
    | case3 | case4 =>
      cases h
      simp
    | case5 _ _ _ _ _ _ ih =>
      have := ih h
      simp only [List.length_drop, List.length_cons] at this ⊢
      omega
  exact Nat.lt_of_lt_of_le (hlt _ h) (length_marksBefore_le T i)

/-- The sign is the last character in front of the keyword that is no blank. -/
theorem readSign_last {T : Text} {kw signAt : Nat} {sign : Sign} (h : readSign T kw = .ok (sign, signAt)) :
    ((T.take kw).reverse.dropWhile isBlank).length = signAt + 1 ∧ signAt < kw := by
  obtain ⟨before, blanks, hd, htake, rfl, -⟩ := readSign_ok h
  have hlen := congrArg List.length htake
  rw [List.length_take, List.length_append, List.length_cons] at hlen
  exact ⟨by rw [hd, List.length_cons, List.length_reverse], by omega⟩

/-- **The four ways to refuse an expression.** -/
theorem locate_refused {T : Text} {kw : Nat} {e : StageError} (h : locate T kw = .error e) :
    (∃ i ≤ kw, e = ⟨.signMissing, Text.slice T i (kw + keyword.length)⟩) ∨
      (∃ sign signAt, readSign T kw = .ok (sign, signAt) ∧
        ((∃ i < signAt, e = ⟨.baseUnbalanced, Text.slice T i (signAt + 1)⟩) ∨
          e = ⟨.baseMissing, Text.slice T signAt (kw + keyword.length)⟩)) ∨
      ∃ sign, readTerms sign (T.drop kw) = .error e := by
  unfold locate at h
  split at h
  · next e' hsign =>
    cases h
    unfold readSign at hsign
    split at hsign
    · cases hsign
      exact .inl ⟨0, Nat.zero_le _, rfl⟩
    · next c before hd =>
      have hlen := (List.dropWhile_sublist isBlank (l := (T.take kw).reverse)).length_le
      rw [hd, List.length_reverse, List.length_take, List.length_cons] at hlen
      split at hsign
      · cases hsign
        exact .inl ⟨before.length, by omega, rfl⟩
      · cases hsign
  · next sign signAt hsign =>
    split at h
    · next e' hbase =>
      cases h
      unfold readBase at hbase
      split at hbase
      · next i hbound =>
        cases hbase
        exact .inr (.inl ⟨sign, signAt, hsign, .inl ⟨i, boundaryBefore_error hbound, rfl⟩⟩)
      · simp only at hbase
        split at hbase
        · cases hbase
          exact .inr (.inl ⟨sign, signAt, hsign, .inr rfl⟩)
        · split at hbase <;> cases hbase
    · split at h
      · next e' hterms =>
        cases h
        exact .inr (.inr ⟨sign, hterms⟩)
      · simp only at h
        split at h <;> cases h

/-- The fragment of a refusal stands at its place, and is not empty. -/
theorem locate_error {T : Text} {kw : Nat} {e : StageError} (hkw : kw + keyword.length ≤ T.length)
    (h : locate T kw = .error e) : e.fragment ≠ [] ∧ e.fragment <+: T.drop (refusedAt T kw e) := by
  have hpos : 0 < keyword.length := List.length_pos_iff.mpr keyword_ne_nil
  -- where a fragment ends tells where it starts
  have hends : ∀ {i j : Nat}, i < j → j ≤ T.length → Text.slice T i j ≠ [] ∧
      Text.slice T i j <+: T.drop (j - (Text.slice T i j).length) := fun {i j} hi hj => by
    have hlen : (Text.slice T i j).length = j - i := by
      rw [Text.slice, List.length_drop, List.length_take, Nat.min_eq_left hj]
    refine ⟨fun hnil => ?_, ?_⟩
    · rw [hnil, List.length_nil] at hlen
      omega
    · rw [hlen, Nat.sub_sub_self (Nat.le_of_lt hi)]
      exact slice_at T i j
  rcases locate_refused h with ⟨i, hi, rfl⟩ | ⟨sign, signAt, hsign, ⟨i, hi, rfl⟩ | rfl⟩ | ⟨sign, hterms⟩
  · exact hends (by omega) hkw
  · obtain ⟨hlen, hlt⟩ := readSign_last hsign
    have hat : refusedAt T kw ⟨.baseUnbalanced, Text.slice T i (signAt + 1)⟩ =
        signAt + 1 - (Text.slice T i (signAt + 1)).length := by
      rw [← hlen]
      rfl
    rw [hat]
    exact hends (by omega) (by omega)
  · have := (readSign_last hsign).2
    exact hends (by omega) hkw
  · have hne : T.drop kw ≠ [] := fun hnil => by
      have := List.drop_eq_nil_iff.mp hnil
      omega
    obtain ⟨hcause, s, hlast, -, hfragment⟩ := readTerms_error hne hterms
    rw [refusedAt, if_pos hcause, hlast]
    exact hfragment

/-- A refusal that points ahead points behind what ends in a parenthesis in front of the keyword. -/
theorem le_refusedAt {D R : Text} {kw : Nat} {e : StageError} (hD : D = [] ∨ D.getLast? = some ')')
    (hle : D.length ≤ kw) (hkw : kw + keyword.length ≤ (D ++ R).length) (h : locate (D ++ R) kw = .error e)
    (hahead : pointsAhead e.cause = true) : D.length ≤ refusedAt (D ++ R) kw e := by
  have hpos : 0 < keyword.length := List.length_pos_iff.mpr keyword_ne_nil
  rcases locate_refused h with ⟨i, hi, rfl⟩ | ⟨sign, signAt, hsign, ⟨i, hi, rfl⟩ | rfl⟩ | ⟨sign, hterms⟩
  · cases hahead
  · cases hahead
  · have hlt := (readSign_last hsign).2
    have hat : refusedAt (D ++ R) kw ⟨.baseMissing, Text.slice (D ++ R) signAt (kw + keyword.length)⟩ = signAt := by
      show kw + keyword.length - (Text.slice (D ++ R) signAt (kw + keyword.length)).length = signAt
      rw [Text.slice, List.length_drop, List.length_take]
      omega
    rw [hat]
    rcases hD with rfl | hlast
    · exact Nat.zero_le _
    · -- from the sign on stand blanks, so the parenthesis stands in front of it
      by_contra hbehind
      obtain ⟨a, b, htake, rfl, -, hb⟩ := readSign_split hsign
      obtain ⟨D, rfl⟩ := List.getLast?_eq_some_iff.mp hlast
      rw [List.length_append, List.length_singleton] at hle hbehind
      have hmem : ')' ∈ b := by
        have hget : (a ++ b)[D.length]? = some ')' := by
          rw [← htake, List.getElem?_take_of_lt (by omega)]
          simp
        rw [List.getElem?_append_right (by omega)] at hget
        exact List.mem_of_getElem? hget
      exact absurd (hb _ hmem) (by decide)
  · have hne : (D ++ R).drop kw ≠ [] := fun hnil => by
      have := List.drop_eq_nil_iff.mp hnil
      omega
    obtain ⟨hcause, s, hlast, hs, -⟩ := readTerms_error hne hterms
    rw [refusedAt, if_pos hcause, hlast]
    exact hle.trans hs

/-! ## The steps -/

/-- **The steps with sources are those of the conversion.** -/
theorem convertFrom_step (done rest : List Sourced) :
    convertFrom (charsOf done) (charsOf rest) =
      match step done rest with
      | .finished M => .ok (charsOf M)
      | .refused r => .error r.error
      | .next done' rest' => convertFrom (charsOf done') (charsOf rest') := by
  rw [convertFrom, step]
  split
  · next hk =>
    rw [hk]
    simp only [charsOf_append]
  · next n hk =>
    have hkw : done.length + n + keyword.length ≤ (charsOf (done ++ rest)).length := by
      have := findKeyword_add_le hk
      simp only [length_charsOf, List.length_append] at this ⊢
      omega
    rw [hk]
    simp only
    rw [length_charsOf, ← charsOf_append]
    split
    · next e he =>
      rw [he]
      simp only [Refusal.error, charsOf_copied (locate_error hkw he).2]
    · next e he =>
      rw [he]
      simp only [charsOf_append, charsOf_take, charsOf_drop, charsOf_sourcedCall he]

theorem step_next {done rest done' rest' : List Sourced} (h : step done rest = .next done' rest') :
    ∃ n e, findKeyword keyword (charsOf done).getLast? (charsOf rest) = some n ∧
      locate (charsOf (done ++ rest)) (done.length + n) = .ok e ∧
      done' = (done ++ rest).take e.start ++ sourcedCall (done ++ rest) (done.length + n) e ∧
      rest' = (done ++ rest).drop e.stop := by
  unfold step at h
  split at h
  · cases h
  · next n hk =>
    simp only at h
    split at h
    · cases h
    · next e he =>
      cases h
      exact ⟨n, e, hk, he, rfl, rfl⟩

/-- What is ahead becomes shorter with each step. -/
theorem length_lt_of_next {done rest done' rest' : List Sourced} (h : step done rest = .next done' rest') :
    rest'.length < rest.length := by
  obtain ⟨n, e, hk, he, -, rfl⟩ := step_next h
  have hlt := locate_lt he
  have hle := findKeyword_add_le hk
  have hpos : 0 < keyword.length := List.length_pos_iff.mpr keyword_ne_nil
  rw [length_charsOf] at hle
  rw [List.length_drop, List.length_append]
  omega

/-! ## What the steps keep -/

theorem faithful_sourcedTerms {query : Text} {M A B : List Sourced} (hM : Faithful query M) (hA : Faithful query A)
    (hB : Faithful query B) (ts : List Term) (as : List Nat) : Faithful query (A ++ (sourcedTerms M ts as ++ B)) := by
  fun_induction sourcedTerms M ts as generalizing A with
  | case1 t ts a as ih =>
    have hbehind := (hM.mono (copied_within M a t.amount)).append_added (ih (Faithful.nil query))
      (t := textOf t.back ++ ([' ', '|', '|', ' ', '\'', ' '] ++ (t.unit.plural ++ ['\'']))) (by simp)
    simp only [List.append_assoc]
    exact hA.append_added hbehind (by simp)
  | case2 => exact hA.append_added hB (by simp)

/-- What the conversion comes to: all that is copied is a part of the statement, and the rest has not been touched. -/
structure Comes (query : Text) (done rest : List Sourced) : Prop where
  faithful : Faithful query (done ++ rest)
  rest : rest <:+ sourced query
  last : charsOf done = [] ∨ (charsOf done).getLast? = some ')'

theorem Comes.step {query : Text} {done rest : List Sourced} (h : Comes query done rest) :
    match step done rest with
    | .finished M => Sound query (.ok M)
    | .refused r => Sound query (.error r)
    | .next done' rest' => Comes query done' rest' := by
  have hdrop : ∀ {i : Nat}, done.length ≤ i → (done ++ rest).drop i <:+ sourced query := fun hi => by
    rw [List.drop_append, List.drop_eq_nil_of_le hi, List.nil_append]
    exact (List.drop_suffix _ _).trans h.rest
  cases hk : findKeyword keyword (charsOf done).getLast? (charsOf rest) with
  | none =>
    simp only [Interval.step, hk]
    exact h.faithful
  | some n =>
    have hkw : done.length + n + keyword.length ≤ (charsOf (done ++ rest)).length := by
      have := findKeyword_add_le hk
      simp only [length_charsOf, List.length_append] at this ⊢
      omega
    cases he : locate (charsOf (done ++ rest)) (done.length + n) with
    | error e =>
      simp only [Interval.step, hk, he]
      obtain ⟨hne, hprefix⟩ := locate_error hkw he
      refine ⟨fun hnil => hne ?_, h.faithful.mono (copied_within _ _ _), fun hahead => ?_⟩
      · rw [← charsOf_copied hprefix]
        exact congrArg charsOf hnil
      · -- what stands behind the place has not been touched
        rw [charsOf_append] at he hkw
        have hle := le_refusedAt h.last (by simp) hkw he hahead
        rw [length_charsOf, ← charsOf_append] at hle
        exact (List.take_prefix _ _).isInfix.trans (hdrop hle).isInfix
    | ok e =>
      simp only [Interval.step, hk, he]
      have hlt := locate_lt he
      refine ⟨?_, hdrop (by omega), .inr ?_⟩
      · simp only [sourcedCall, List.append_assoc]
        exact (h.faithful.mono (List.take_prefix _ _).isInfix).append_added
          (faithful_sourcedTerms h.faithful (h.faithful.mono (copied_within _ _ _))
            (h.faithful.mono (List.drop_suffix _ _).isInfix) _ _)
          (by decide +kernel)
      · rw [charsOf_append, charsOf_sourcedCall he, List.getLast?_append, getLast?_render]
        rfl

/-- **The interval stage.** Its answer comes from steps in which all that is copied is a part of the statement. -/
theorem exists_sound (query : Text) :
    ∃ out, Leads step [] (sourced query) out ∧ convert query = answer out ∧ Sound query out := by
  obtain ⟨out, hleads⟩ := Leads.exists_of_lt List.length (fun _ _ _ _ => length_lt_of_next) [] (sourced query)
  have hconvert := hleads.answer_eq convertFrom_step
  rw [charsOf_nil, charsOf_sourced] at hconvert
  exact ⟨out, hleads, hconvert, hleads.invariant (P := Comes query)
    ⟨faithful_sourced query, List.suffix_refl _, .inl rfl⟩ fun _ _ h => h.step⟩

end SqlDialect.Interval
