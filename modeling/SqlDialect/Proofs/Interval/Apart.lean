import SqlDialect.Proofs.Interval.Decomposition

/-!
# The words next to an expression

The call written for an interval expression starts with a name, so it must not touch a word of the text. A base that
stands behind a blank, a bracket, a separator or a comment does not. A stop word ends where the next character is no
word character, but the base may start right there, at a parenthesis or a quote, and then the name of the function
continues the stop word.

* `readTerms_stop`: no word goes on behind the terms.
* `front_of_readBase`: what stands in front of a base.
* `locate_apart`: which expressions do not touch the word in front of them.
-/

namespace SqlDialect.Interval

/-! ## Behind the terms -/

theorem readTerm_stop {sign : Sign} {source : Text} {t : Term} {n : Nat} (h : readTerm sign source = .ok (t, n)) :
    (source.drop n).head?.any isWord = false := by
  obtain ⟨start, hu, -⟩ := readTerm_ok h
  obtain ⟨ys, u, z, hys, -, rfl, rfl, -, -, hz⟩ := findUnit_pieces hu
  have hcut : pieces (source.drop keyword.length) = (ys ++ u.map .code) ++ pieces z := by rw [hys]; simp
  have hstop : source.drop (keyword.length + (textOf ys).length + u.length) = z := by
    rw [Nat.add_assoc, ← List.drop_drop, drop_of_pieces hcut (by rw [textOf_append, textOf_map_code, List.length_append]),
      textOf_pieces]
  rw [hstop]
  exact hz

theorem readChain_stop {text : Text} {ts : List Term} {n : Nat} (h : readChain text = .ok (ts, n))
    (hw : text.head?.any isWord = false) : (text.drop n).head?.any isWord = false := by
  fun_induction readChain text generalizing ts n with
  | case1 text hs =>
    cases h
    exact hw
  | case2 | case3 => cases h
  | case4 text sign skipped hs t m ht ts' k hc ih =>
    cases h
    have hterm := readTerm_stop ht
    rw [List.drop_drop] at hterm
    rw [← List.drop_drop]
    exact ih hc hterm

/-- No word goes on behind the terms. -/
theorem readTerms_stop {sign : Sign} {source : Text} {ts : List Term} {n : Nat}
    (h : readTerms sign source = .ok (ts, n)) : (source.drop n).head?.any isWord = false := by
  obtain ⟨t, m, ts', k, ht, hc, rfl, rfl⟩ := readTerms_ok h
  rw [← List.drop_drop]
  exact readChain_stop hc (readTerm_stop ht)

/-! ## In front of the base -/

/-- The text ends in no word, or with a stop word. -/
def EndsOutsideWord (text : Text) : Prop := text.getLast?.any isWord = false ∨ EndsInStopWord text

theorem endsOutsideWord_boundary {T : Text} {i : Nat} {b : Boundary} (h : boundaryBefore (marksBefore T i) = .ok b) :
    EndsOutsideWord (T.take b.start) := by
  left
  rcases boundaryBefore_pieces h with rfl | ⟨ms, c, hp, hl, hc, -⟩
  · rfl
  · have hcut : pieces T = (ms ++ [.code c]) ++ pieces (T.drop b.start) := by rw [hp]; simp
    rw [take_of_pieces hcut (by simpa [Piece.text] using hl)]
    simpa [Piece.text] using hc

/-- The search for stop words ends where it starts or behind a stop word. -/
theorem endsOutsideWord_stopWordCut {T : Text} {limit : Nat} {before : Option Char} {i start : Nat} {rest : Text}
    (hrest : T.drop i = rest) (hbefore : (T.take i).getLast? = before) (hs : EndsOutsideWord (T.take start)) :
    EndsOutsideWord (T.take (stopWordCut limit before i start rest)) := by
  fun_induction stopWordCut limit before i start rest with
  | case1 | case2 => exact hs
  | case3 before i start c rest _ _ n _ ih | case5 before i start c rest _ _ n _ ih =>
    exact ih (drop_add_succ hrest n) (getLast?_take_succ hrest n) hs
  | case4 before i start c rest _ _ _ ih | case7 before i start c rest _ _ _ _ ih =>
    exact ih (drop_succ hrest) (getLast?_take_next hrest) hs
  | case6 before i start c rest _ _ _ w hw n =>
    rename_i ih
    refine ih (drop_add_succ hrest n) (getLast?_take_succ hrest n) (Or.inr ?_)
    have hat := stopWordAt_of_find? hw
    refine ⟨T.take i, c :: rest.take n, w, ?_, hat.mem, hat.lower, by rw [hbefore]; exact hat.front⟩
    rw [Nat.add_assoc, List.take_add, hrest, List.take_succ_cons]

/-- Blanks and comments do not end within a word. -/
theorem endsOutsideWord_trivia {T : Text} {i : Nat} (h : EndsOutsideWord (T.take i))
    (hne : T.drop (i + triviaLength (T.drop i)) ≠ []) : EndsOutsideWord (T.take (i + triviaLength (T.drop i))) := by
  obtain ⟨ds, hd, hl, hds, hbl, -⟩ := pieces_trivia (T.drop i)
  have hhead := not_isBlank_behind_trivia (T.drop i)
  rw [List.drop_drop] at hd hhead
  by_cases hnil : ds = []
  · rw [hnil] at hl
    rwa [← hl]
  · left
    have hcut : pieces (T.drop i) = [] ++ (ds ++ pieces (T.drop (i + triviaLength (T.drop i)))) := hd
    obtain ⟨c, hc, hw, -⟩ := trivia_last hcut hds hbl hne hhead hnil
    rw [List.take_add, take_of_pieces hd hl, List.getLast?_append, hc]
    exact hw

/-- **In front of a base** there is no word but a stop word. -/
theorem front_of_readBase {T : Text} {signAt stop : Nat} {base : Base} (h : readBase T signAt stop = .ok base) :
    EndsOutsideWord (T.take base.start) := by
  obtain ⟨hlt, hlen⟩ := start_lt_of_readBase h
  obtain ⟨bound, hbound, hstart, -⟩ := readBase_ok h
  have hcut :=
    @endsOutsideWord_stopWordCut T signAt _ bound.start _ _ rfl rfl (endsOutsideWord_boundary hbound)
  rw [baseStart] at hstart
  generalize stopWordCut signAt (T.take bound.start).getLast? bound.start bound.start (T.drop bound.start) = cut at *
  have hbase : base.start = cut + triviaLength (T.drop cut) := by omega
  rw [hbase] at hlen ⊢
  exact endsOutsideWord_trivia hcut (by rw [ne_eq, List.drop_eq_nil_iff]; omega)

/-! ## The whole expression -/

/-- The character in front of an expression is no word character. -/
def FrontApart (T : Text) (e : Expression) : Prop := (T.take e.start).getLast?.any isWord = false

/-- No word goes on behind an expression, or a closing parenthesis is taken away there. -/
def BehindApart (T : Text) (e : Expression) : Prop :=
  (T.drop e.stop).head?.any isWord = false ∨ e.start < e.stop ∧ T[e.stop - 1]? = some ')'

/-- A text ends with a space that counts as a word character. -/
def EndsInWideSpace (text : Text) : Prop := ∃ c, text.getLast? = some c ∧ isWord c = true ∧ isSpace c = true

theorem word_of_endsInStopWord {text : Text} (h : EndsInStopWord text) : text.getLast?.any isWord = true := by
  obtain ⟨x, v, w, rfl, hw, hv, -⟩ := h
  obtain ⟨hne, hword⟩ := stopWords_word w hw
  have hvne : v ≠ [] := fun e => hne (List.length_eq_zero_iff.mp (by rw [← length_eq_of_lower_eq hv, e]; rfl))
  rw [List.getLast?_append, List.getLast?_eq_some_getLast hvne]
  exact isWord_of_lower_eq hv hword _ (List.getLast_mem hvne)

/-- **What stands next to an expression.** No word goes on behind it. In front of it no word ends unless it is a stop
word that touches the expression, or a wide space in front of the parenthesis that the expression fills. -/
theorem locate_apart {T : Text} {kw : Nat} {e : Expression} (h : locate T kw = .ok e) :
    BehindApart T e ∧
      (FrontApart T e ↔ ¬ EndsInStopWord (T.take e.start) ∧
        ¬ (T[e.start]? = some '(' ∧ EndsInWideSpace (T.take e.start))) := by
  obtain ⟨sign, signAt, base, n, -, hbase, hts, -, hplace⟩ := locate_ok h
  -- a stop word or a wide space is no end of a word
  have hapart : FrontApart T e → ¬ EndsInStopWord (T.take e.start) ∧ ¬ EndsInWideSpace (T.take e.start) := by
    intro hfront
    refine ⟨fun hstop => ?_, fun ⟨c, hc, hw, _⟩ => ?_⟩
    · rw [FrontApart, word_of_endsInStopWord hstop] at hfront
      cases hfront
    · rw [FrontApart, hc, Option.any_some, hw] at hfront
      cases hfront
  refine ⟨?_, fun hfront => ⟨(hapart hfront).1, fun hwide => (hapart hfront).2 hwide.2⟩, fun ⟨hstop, hwide⟩ => ?_⟩
  · rcases hplace with ⟨opener, close, -, hend, hstart, hstop⟩ | ⟨-, -, hstop⟩
    · right
      obtain ⟨hopen, -⟩ := groupEnd?_pieces hend
      obtain ⟨ps, d, -, hclose, hat, -, hd⟩ := findClosing_split hopen rfl (closing_of_groupEnd? hend).1
      obtain rfl := eq_of_openerOf? hd
      exact ⟨by omega, by rwa [hstop]⟩
    · left
      have hbehind := readTerms_stop hts
      rwa [List.drop_drop, ← hstop] at hbehind
  · rcases hplace with ⟨opener, close, -, hend, hstart, -⟩ | ⟨-, hstart, -⟩
    · rw [hstart] at hstop hwide
      obtain ⟨hopen, -, hlist, -⟩ := groupEnd?_pieces hend
      rcases endsWords_of_opensList hlist with hname | hword
      · rw [FrontApart, hstart]
        cases hlast : (T.take opener).getLast? with
        | none => rfl
        | some c =>
          rw [hlast, Option.any_some, isName] at hname
          cases hw : isWord c with
          | false => exact hw
          | true =>
            rw [hw, Bool.true_and, Bool.not_eq_false'] at hname
            exact absurd ⟨hopen, c, hlast, hw, hname⟩ hwide
      · exact absurd hword hstop
    · rw [hstart] at hstop
      rw [FrontApart, hstart]
      exact (front_of_readBase hbase).resolve_right hstop

/-- The name of the function continues a keyword that touches the parenthesis in front of the base. -/
theorem locate_apart_where :
    let T := "where(t + interval 1 second) > now".toList
    let e : Expression := ⟨"t".toList, [⟨.plus, "1".toList, .second⟩], 5, 28⟩
    locate T 10 = .ok e ∧ BehindApart T e ∧ ¬ FrontApart T e ∧
      T.take e.start ++ e.render ++ T.drop e.stop = "wheredatetime(t, '+' || 1 || ' seconds') > now".toList := by
  intro T e
  have hlocate : locate T 10 = .ok e := eq_ok_of_toOption (by decide +kernel)
  obtain ⟨hbehind, hiff⟩ := locate_apart hlocate
  refine ⟨hlocate, hbehind, fun hfront => (hiff.mp hfront).1 ?_, by decide +kernel⟩
  exact ⟨[], "where".toList, "where".toList, by decide +kernel, by decide +kernel, rfl, rfl⟩

end SqlDialect.Interval
