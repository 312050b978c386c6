import SqlDialect.Proofs.Arguments
import SqlDialect.Proofs.Interval.Local

/-!
# The offsets of an interval expression

The call that an interval expression becomes is read back by the rules of the embedded dialect: its arguments are cut
at the commas, and every argument behind the base is evaluated. An amount that is a sum of numerals and names keeps its
value, whether its sign is written as a text, folded into it or left out.

* `offset?_modifier`: one modifier is the signed value of its amount with the unit.
* `offsets?_render`: the call has one modifier for each term, in their order.
* `offsets_kept`: this holds for the expressions of a text.
-/

namespace SqlDialect.Interval

open Arithmetic

/-! ## The tokens of a modifier -/

/-- The sign of a term applied to the value of its amount. -/
def Sign.apply : Sign → Int → Int
  | plus, n => n
  | minus, n => -n

/-- What stands behind the value of a term. -/
theorem lex_unit (unit : TimeUnit) : lex ([' ', '|', '|', ' ', '\'', ' '] ++ unit.plural ++ ['\'']) =
    some [.concat, .quoted (' ' :: unit.plural)] := by
  cases unit <;> decide +kernel

section Amount

variable {p : Amount} {t : Term}

/-- A numeral is an amount of a single number. -/
theorem tokens_of_isNumeral (h : Spells p t.amount) (hnum : isNumeral t.amount = true) :
    p.tokens = [.number t.amount] := by
  have htok := isToken_of_isNumeral hnum
  obtain ⟨tok, hword, htokens⟩ := h.word (List.all_eq_true.mp htok)
  rw [htokens]
  obtain ⟨c, x, ha⟩ := List.exists_cons_of_ne_nil h.ne_nil
  unfold word? at hword
  split at hword
  · cases hword
    rfl
  · -- a numeral starts with a digit or a point
    rw [ha] at hword hnum
    simp only [isNumeral, List.all_cons, Bool.and_eq_true] at hnum
    rw [List.head?_cons, Option.any_some, if_pos hnum.1] at hword
    cases hword

/-- Any other single token is a name. -/
theorem tokens_of_isToken (h : Spells p t.amount) (hnum : isNumeral t.amount = false) (htok : isToken t.amount = true) :
    p.tokens = [.name t.amount] := by
  obtain ⟨tok, hword, htokens⟩ := h.word (List.all_eq_true.mp htok)
  rw [htokens]
  unfold word? at hword
  split at hword
  · next hall =>
    exfalso
    have hdigits : isNumeral t.amount = true := by
      rw [isNumeral, List.all_eq_true]
      intro c hc
      simp [List.all_eq_true.mp hall c hc]
    rw [hnum] at hdigits
    cases hdigits
  · split at hword
    · cases hword
    · cases hword
      rfl

/-- The value of a term that is no numeral is written as a factor: the sign is folded into it. -/
theorem lex_value (h : Spells p t.amount) (hnum : isNumeral t.amount = false) :
    ∃ f : Factor, (∀ names, f.value names = t.sign.apply (p.value names)) ∧
      ∀ r, Ends r → lex (t.value ++ r) = (lex r).map (f.tokens ++ ·) := by
  have hclose : ∀ {r : Text}, Ends (')' :: r) := Or.inr rfl
  unfold Term.value
  rw [if_neg (by simp [hnum])]
  split
  · next hsign htok =>
    have htokens := tokens_of_isToken h hnum htok
    refine ⟨.name t.amount, fun names => ?_, fun r hr => ?_⟩
    · have := value_of_token htokens (x := .name t.amount) (by simp [operand]) names
      simpa [evaluate, hsign, Sign.apply, Factor.value] using this
    · rw [lex_append h hr, htokens]
      rfl
  · next hsign htok =>
    refine ⟨.group p, fun names => by rw [hsign]; rfl, fun r _ => ?_⟩
    simp only [List.append_assoc, List.cons_append, List.nil_append]
    rw [lex_opening, lex_append h hclose, lex_closing]
    simp [Factor.tokens, Function.comp_def]
  · next hsign htok =>
    have htokens := tokens_of_isToken h hnum htok
    refine ⟨.group (.product (.factor (.neg (.name t.amount)))), fun names => ?_, fun r _ => ?_⟩
    · have := value_of_token htokens (x := .name t.amount) (by simp [operand]) names
      simp only [evaluate, Option.some.injEq, Value.integer.injEq] at this
      rw [hsign, Sign.apply, ← this]
      rfl
    · have hhead : (t.amount ++ ')' :: r).head? ≠ some '-' := by
        obtain ⟨c, x, ha⟩ := List.exists_cons_of_ne_nil h.ne_nil
        rw [ha] at htok ⊢
        intro hc
        rw [Option.some.inj hc] at htok
        cases htok
      simp only [List.append_assoc, List.cons_append, List.nil_append]
      rw [lex_opening, lex_minus hhead, lex_append h hclose, lex_closing, htokens]
      simp [Factor.tokens, Amount.tokens, Product.tokens, Function.comp_def]
  · next hsign htok =>
    refine ⟨.group (.product (.factor (.neg (.group p)))), fun names => ?_, fun r _ => ?_⟩
    · rw [hsign]
      rfl
    · simp only [List.append_assoc, List.cons_append, List.nil_append]
      rw [lex_opening, lex_minus (by simp), lex_opening, lex_append h hclose, lex_closing, lex_closing]
      simp [Factor.tokens, Amount.tokens, Product.tokens, Function.comp_def]

theorem ends_unit (unit : TimeUnit) : Ends ([' ', '|', '|', ' ', '\'', ' '] ++ unit.plural ++ ['\'']) := Or.inl rfl

/-- The sign of a numeral is written as a text. -/
theorem lex_sign (sign : Sign) (x : Text) : lex (['\'', sign.char, '\'', ' ', '|', '|', ' '] ++ x) =
    (lex x).map ([.quoted [sign.char], .concat] ++ ·) := by
  have hquote : token? '\'' (sign.char :: '\'' :: ' ' :: '|' :: '|' :: ' ' :: x) = some (.quoted [sign.char], 2) := by
    cases sign <;> rfl
  have hbar : token? '|' ('|' :: ' ' :: x) = some (.concat, 1) := rfl
  have hblank : ∀ y, lex (' ' :: y) = lex y := lex_blank rfl
  simp only [List.cons_append, List.nil_append]
  rw [lex, if_neg (by decide), hquote]
  simp only [List.drop_succ_cons, List.drop_zero]
  rw [hblank, lex, if_neg (by decide), hbar]
  simp only [List.drop_succ_cons, List.drop_zero]
  rw [hblank, Option.map_map]
  rfl

/-- A numeral with its sign in front is read back as that integer. -/
theorem integer?_signed (sign : Sign) {digits : Text} (h : Decimal.isDigits digits = true) :
    Decimal.integer? (sign.char :: digits) = some (sign.apply (Decimal.value digits)) := by
  cases sign <;> simp [Sign.char, Sign.apply, Decimal.integer?, Decimal.splitSign, h]

/-- The tokens of a modifier: the value of the term and the unit. -/
theorem lex_modifier (h : Spells p t.amount) :
    (isNumeral t.amount = true ∧ p.tokens = [.number t.amount] ∧ lex (' ' :: t.modifier) =
      some [.quoted [t.sign.char], .concat, .number t.amount, .concat, .quoted (' ' :: t.unit.plural)]) ∨
    ∃ f : Factor, (∀ names, f.value names = t.sign.apply (p.value names)) ∧
      lex (' ' :: t.modifier) = some (f.tokens ++ [.concat, .quoted (' ' :: t.unit.plural)]) := by
  have htext : ' ' :: t.modifier =
      ' ' :: (t.value ++ ([' ', '|', '|', ' ', '\'', ' '] ++ t.unit.plural ++ ['\''])) := by
    simp [Term.modifier]
  rw [htext, lex_blank rfl]
  by_cases hnum : isNumeral t.amount = true
  · have htokens := tokens_of_isNumeral h hnum
    refine Or.inl ⟨hnum, htokens, ?_⟩
    rw [Term.value, if_pos hnum, List.append_assoc, lex_sign, lex_append h (ends_unit t.unit), lex_unit, htokens]
    rfl
  · obtain ⟨f, hf, hlex⟩ := lex_value h (by simpa using hnum)
    refine Or.inr ⟨f, hf, ?_⟩
    rw [hlex _ (ends_unit t.unit), lex_unit]
    rfl

/-- **One modifier.** Where it is read as an expression of the embedded dialect, it is the signed value of the amount
with the unit behind it. -/
theorem offset?_modifier (h : Spells p t.amount) (names : Text → Int) :
    (valueOf names (' ' :: t.modifier)).bind offset? = some (t.sign.apply (p.value names), t.unit.plural) := by
  have hquoted : ∀ u rest, operand (.quoted u :: rest) = some (.quoted u, rest) := fun u rest => by rw [operand]
  rw [valueOf]
  rcases lex_modifier h with ⟨-, htokens, hlex⟩ | ⟨f, hf, hlex⟩
  · have hvalue := value_of_token htokens (x := .number t.amount) (by simp [operand]) names
    have hread : expression 0 [.quoted [t.sign.char], .concat, .number t.amount, .concat, .quoted (' ' :: t.unit.plural)] =
        some (.binary .concat (.binary .concat (.quoted [t.sign.char]) (.number t.amount))
          (.quoted (' ' :: t.unit.plural)), []) := by
      have hnumber : ∀ rest, operand (.number t.amount :: rest) = some (.number t.amount, rest) := fun rest => by
        rw [operand]
      rw [expression_of_operand (hquoted _ _) (by simp),
        further_token rfl (by decide) (hnumber _) (looser_of_operator? rfl (by decide) _),
        further_token rfl (by decide) (hquoted _ _) (looser_nil _), further_of_looser (looser_nil _)]
    rw [hlex, Option.bind_some, hread]
    simp only [evaluate, Operator.apply, Value.shown, Option.bind_some, decimal_natCast]
    simp only [evaluate, Option.some.injEq, Value.integer.injEq] at hvalue
    have hblank : ' ' ∉ t.sign.char :: Nat.toDigits 10 (Decimal.value t.amount) := by
      have hdigits := not_mem_toDigits (c := ' ') (by decide) (Decimal.value t.amount)
      cases t.sign <;> simp [Sign.char, hdigits]
    rw [← hvalue]
    refine offset?_text hblank ?_
    rw [List.singleton_append, integer?_signed _ (isDigits_toDigits _), value_toDigits]
  · have hread : expression 0 (f.tokens ++ [.concat, .quoted (' ' :: t.unit.plural)]) =
        some (.binary .concat f.expr (.quoted (' ' :: t.unit.plural)), []) := by
      rw [expression_of_operand (operand_factor f _) (length_lt_append f.tokens_ne_nil _),
        further_token rfl (by decide) (hquoted _ _) (looser_nil _), further_of_looser (looser_nil _)]
    rw [hlex, Option.bind_some, hread]
    simp only [evaluate, evaluate_factor, Operator.apply, Value.shown, Option.bind_some]
    rw [offset?_decimal, hf]

/-- A modifier is one argument of the call. -/
theorem isArgument_modifier (h : Spells p t.amount) : IsArgument (' ' :: t.modifier) := by
  rcases lex_modifier h with ⟨-, -, hlex⟩ | ⟨f, -, hlex⟩
  · exact isArgument_of_lex hlex rfl
  · refine isArgument_of_lex hlex ?_
    rw [openAfter_append, openAfter_factor]
    rfl

end Amount

/-! ## The call -/

/-- What stands behind the base in the call that an expression becomes. -/
def Expression.modifiers (e : Expression) : List Text := e.terms.map fun t => ' ' :: t.modifier

/-- The base and the offsets of a text that is a call which adds modifiers to a timestamp. -/
def offsets? (names : Text → Int) (text : Text) : Option (Text × List (Int × Text)) :=
  match arguments? functionName text with
  | some (base :: modifiers) => (modifiers.mapM fun m => (valueOf names m).bind offset?).map (base, ·)
  | _ => none

/-- The offset that a term with the given amount stands for. -/
def offset (names : Text → Int) : Amount × Term → Int × Text
  | (p, t) => (t.sign.apply (p.value names), t.unit.plural)

theorem render_call (e : Expression) :
    e.render = functionName ++ '(' :: (joinParts ',' e.base e.modifiers ++ [')']) := by
  simp [Expression.render, Expression.modifiers, joinParts, List.flatMap_map]

section Terms

variable {e : Expression} {xs : List (Amount × Term)}

theorem map_offset? (hx : ∀ x ∈ xs, Spells x.1 x.2.amount) (names : Text → Int) :
    (xs.map fun x => ' ' :: x.2.modifier).mapM (fun m => (valueOf names m).bind offset?) = some (xs.map (offset names)) := by
  induction xs with
  | nil => rfl
  | cons x xs ih =>
    rw [List.map_cons, List.mapM_cons, offset?_modifier (hx x List.mem_cons_self) names,
      ih fun y hy => hx y (List.mem_cons_of_mem _ hy)]
    rfl

/-- The call is read as the base with the offsets. -/
theorem offsets?_render (he : e.terms = xs.map Prod.snd) (hx : ∀ x ∈ xs, Spells x.1 x.2.amount) (names : Text → Int)
    (hb : IsArgument e.base) : offsets? names e.render = some (e.base, xs.map (offset names)) := by
  have hmodifiers : e.modifiers = xs.map fun x => ' ' :: x.2.modifier := by
    rw [Expression.modifiers, he, List.map_map]
    rfl
  have hargs : ∀ m ∈ e.modifiers, IsArgument m := by
    intro m hm
    rw [hmodifiers] at hm
    obtain ⟨x, hmem, rfl⟩ := List.mem_map.mp hm
    exact isArgument_modifier (hx x hmem)
  rw [offsets?, render_call, arguments?_call functionName hb hargs, hmodifiers]
  simp only [map_offset? hx]
  rfl

end Terms

/-! ## The terms in the text -/

/-- The terms stand in the text from the keyword at position `kw` on, each behind the one before it, with the sign of
the first in front of the keyword and that of each other in front of its own. -/
def TermsAt (T : Text) (kw : Nat) (ts : List Term) : Prop :=
  ∃ (t : Term) (ts' : List Term) (signAt n : Nat) (blanks : Text) (qs rs : List Piece), ts = t :: ts' ∧
    T.drop signAt = t.sign.char :: (blanks ++ T.drop kw) ∧ (∀ c ∈ blanks, isBlank c = true) ∧
    pieces (T.drop kw) = qs ++ (rs ++ pieces (T.drop (kw + n))) ∧ TermPieces t qs ∧ FurtherTerms ts' rs

theorem termsAt_of_locate {T : Text} {kw : Nat} {e : Expression} {b : Option Char}
    (hk : startsKeyword keyword b (T.drop kw) = true) (h : locate T kw = .ok e) : TermsAt T kw e.terms := by
  obtain ⟨sign, signAt, base, n, hsign, -, hterms, -⟩ := locate_ok h
  obtain ⟨-, blanks, hblanks, hdrop⟩ := readSign_drop hsign
  obtain ⟨t, ts', qs, rs, hts, rfl, hq, -, hterm, hfurther, -⟩ := readTerms_split hk hterms
  rw [List.drop_drop, List.append_assoc] at hq
  exact ⟨t, ts', signAt, n, blanks, qs, rs, hts, hdrop, hblanks, hq, hterm, hfurther⟩

theorem oneArgument_of_operand {ps : List Piece} (h : Operand ps) : OneArgument ps := by
  refine ⟨h.nest, fun ms ns he hms => ?_⟩
  have hcomma := h.separator ms ',' ns he hms
  cases hcomma

/-- The base of an expression in a well-formed text is one argument. -/
theorem isArgument_base {T : Text} {kw : Nat} {e : Expression} {b : Option Char} (hT : WellFormed T)
    (hcode : regionAt? (regions T) kw = none) (hk : startsKeyword keyword b (T.drop kw) = true)
    (h : locate T kw = .ok e) : IsArgument e.base := by
  have hkw : kw ≤ T.length := by
    refine Nat.le_of_not_lt fun hlt => ?_
    rw [List.drop_eq_nil_of_le (Nat.le_of_lt hlt), startsKeyword_end (Or.inl rfl)] at hk
    cases hk
  obtain ⟨FS, hp, hl⟩ := cut_of_code hcode hkw
  obtain ⟨FA, G, Fb, M, Qs, H, -, hloc, hFb, -⟩ := locate_balanced hT hp hl hk h
  exact ⟨Fb, hloc.reads_base (Or.inl rfl), oneArgument_of_operand hFb⟩

/-! ## The offsets -/

/-- **The offsets are kept.** An expression whose amounts are sums becomes a call with one modifier for each term, in
their order, and the modifier of a term is the signed value of its amount with its unit. Where the base is one argument,
the call is read so as a whole. It is one wherever the expression stands in a well-formed text, and there the terms have
the order of the text. -/
theorem offsets_kept {e : Expression} {xs : List (Amount × Term)} (he : e.terms = xs.map Prod.snd)
    (hx : ∀ x ∈ xs, Spells x.1 x.2.amount) (names : Text → Int) :
    (e.render = functionName ++ '(' :: (joinParts ',' e.base e.modifiers ++ [')']) ∧
        e.modifiers.map (fun m => (valueOf names m).bind offset?) = xs.map fun x => some (offset names x)) ∧
      (IsArgument e.base → offsets? names e.render = some (e.base, xs.map (offset names))) ∧
      ∀ (T : Text) (kw : Nat), WellFormed T → regionAt? (regions T) kw = none →
        startsKeyword keyword (T.take kw).getLast? (T.drop kw) = true → locate T kw = .ok e →
        IsArgument e.base ∧ TermsAt T kw e.terms := by
  refine ⟨⟨render_call e, ?_⟩, offsets?_render he hx names, fun T kw hT hcode hk h => ?_⟩
  · rw [Expression.modifiers, he, List.map_map, List.map_map]
    exact List.map_congr_left fun x hmem => offset?_modifier (hx x hmem) names
  · exact ⟨isArgument_base hT hcode hk h, termsAt_of_locate hk h⟩

/-- A numeral, a name with either sign, and sums with either sign. -/
theorem offsets_kept_shapes :
    let T := "f(t, u) - interval 5 second + interval n minute - interval m hour ".toList ++
      "+ interval -n * 2 day - interval (a - b) month".toList
    let names : Text → Int := fun name =>
      if name = ['n'] then 3 else if name = ['m'] then -4 else if name = ['a'] then 1 else 5
    let amounts : List Amount := [.product (.factor (.number ['5'])), .product (.factor (.name ['n'])),
      .product (.factor (.name ['m'])), .product (.mul (.factor (.neg (.name ['n']))) (.number ['2'])),
      .product (.factor (.group (.sub (.product (.factor (.name ['a']))) (.factor (.name ['b'])))))]
    let terms : List Term := [⟨.minus, "5".toList, .second⟩, ⟨.plus, "n".toList, .minute⟩, ⟨.minus, "m".toList, .hour⟩,
      ⟨.plus, "-n * 2".toList, .day⟩, ⟨.minus, "(a - b)".toList, .month⟩]
    let e : Expression := ⟨"f(t, u)".toList, terms, 0, 112⟩
    (∀ x ∈ amounts.zip terms, Spells x.1 x.2.amount) ∧ locate T 10 = .ok e ∧ TermsAt T 10 terms ∧
      offsets? names e.render = some ("f(t, u)".toList, [(-5, "seconds".toList), (3, "minutes".toList),
        (4, "hours".toList), (-6, "days".toList), (4, "months".toList)]) := by
  intro T names amounts terms e
  have hspelled : ∀ x ∈ amounts.zip terms, Spells x.1 x.2.amount := by
    have h : (amounts.zip terms).all fun x => lex x.2.amount = some x.1.tokens := by decide +kernel
    exact fun x hx => by simpa [Spells] using List.all_eq_true.mp h x hx
  have hT : WellFormed T := by decide +kernel
  have hcode : regionAt? (regions T) 10 = none := by decide +kernel
  have hk : startsKeyword keyword (T.take 10).getLast? (T.drop 10) = true := by decide +kernel
  have hlocate : locate T 10 = .ok e := eq_ok_of_toOption (by decide +kernel)
  obtain ⟨-, hcall, htext⟩ := @offsets_kept e (amounts.zip terms) rfl hspelled names
  obtain ⟨hbase, hterms⟩ := htext T 10 hT hcode hk hlocate
  refine ⟨hspelled, hlocate, hterms, (hcall hbase).trans ?_⟩
  decide +kernel

end SqlDialect.Interval
