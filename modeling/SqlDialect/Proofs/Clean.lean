import SqlDialect.Translator
import SqlDialect.Proofs.Calls
import SqlDialect.Proofs.FunctionName
import SqlDialect.Proofs.Interval.Level
import SqlDialect.Proofs.Interval.Separate
import SqlDialect.Proofs.Qualifier

/-!
# Clean statements

A stage changes a text only where it finds what it converts. Most stages look at code alone, the markers are sought in
the whole text, and the qualifiers everywhere but in what is read as a string literal. A statement is clean if there is
nothing to be found by any of them.

* `Translator.translate_clean`: a clean statement is translated into itself.
-/

namespace SqlDialect

/-! ## Stages that find nothing -/

/-- A text with no call in its code has nothing to convert. A name without a parenthesis behind it is no call. -/
theorem TimeDifference.convert_of_no_call {text : Text} (h : ∀ i, regionAt? (regions text) i = none →
    startsKeyword functionName (text.take i).getLast? (text.drop i) = true →
    ((text.drop (i + functionName.length)).dropWhile isBlank).head? ≠ some '(') : convert text = .ok text := by
  have hnone : firstIn startsCall ([] : Text).getLast? (pieces text) = none := by
    refine firstIn_eq_none_iff.mpr fun ms c ns hp => ?_
    have hcode := (Interval.code_at hp rfl).2
    have hfront : text.take (textOf ms).length = textOf ms := take_of_pieces hp rfl
    have hback : text.drop (textOf ms).length = c :: textOf ns := drop_of_pieces hp rfl
    have hno := h _ hcode
    rw [← List.drop_drop, hfront, hback] at hno
    show startsCall ((textOf ms).getLast?.or none) (c :: textOf ns) = false
    rw [Option.or_none, Bool.eq_false_iff]
    intro hcall
    simp only [startsCall, Bool.and_eq_true, beq_iff_eq] at hcall
    exact hno hcall.1 hcall.2
  exact convertFrom_of_none hnone

/-- A text in which none of the spellings is found keeps its names. -/
theorem FunctionName.convert_of_none {text : Text} (h : ∀ r ∈ renames, findKeyword r.old none text = none) :
    convert text = text := by
  have hfold : ∀ rs : List Rename, (∀ r ∈ rs, findKeyword r.old none text = none) →
      rs.foldl (fun text r => renameFrom r none text) text = text := fun rs hrs => by
    induction rs with
    | nil => rfl
    | cons r rs ih =>
      rw [List.foldl_cons, renameFrom_of_none (hrs r List.mem_cons_self)]
      exact ih fun r hr => hrs r (List.mem_cons_of_mem _ hr)
  exact hfold renames h

/-- A text without markers stays as it is. -/
theorem Marker.convert_of_not_infix {text : Text} (h : ¬ ['%', 's'] <:+: text) : convert text = text := by
  fun_induction convert text with
  | case1 rest => exact absurd ⟨[], rest, rfl⟩ h
  | case2 c rest hno ih => rw [ih fun hrest => h (hrest.trans (List.suffix_cons c rest).isInfix)]
  | case3 => rfl

/-- Where no name starts with a spelling, nothing is dropped. -/
theorem Qualifier.stripFrom_of_none {qs : List Text} {text before rest : Text}
    (h : ∀ i, spelling? qs (text.take i).getLast? (text.drop i) = none) (he : text = before ++ rest) :
    stripFrom qs before.getLast? rest = ⟨rest, 0⟩ := by
  induction hlen : rest.length using Nat.strongRecOn generalizing before rest with
  | ind m ih =>
    cases rest with
    | nil => rw [stripFrom]
    | cons c rest =>
      have hhere := h before.length
      rw [he, List.take_left, List.drop_left] at hhere
      have hnext : ∀ n, stripFrom qs (c :: rest.take n).getLast? (rest.drop n) = ⟨rest.drop n, 0⟩ := fun n => by
        have hlast : (before ++ c :: rest.take n).getLast? = (c :: rest.take n).getLast? := by
          rw [List.getLast?_append, List.getLast?_eq_some_getLast (List.cons_ne_nil _ _)]
          rfl
        rw [← hlast]
        refine ih _ ?_ (by rw [he]; simp) rfl
        rw [← hlen, List.length_drop, List.length_cons]
        omega
      rw [stripFrom, ← spelling?, hhere]
      cases hs : stringTail? c rest with
      | none =>
        have hone := hnext 0
        rw [List.take_zero, List.drop_zero, List.getLast?_singleton] at hone
        simp only [hone]
      | some n => simp only [hnext, List.cons_append, List.take_append_drop]

/-- A text in which no name starts with a qualifier keeps all its characters. -/
theorem Qualifier.strip_of_none {schema text : Text} (h : ∀ i, startsName (text.take i).getLast? = true →
    ∀ q ∈ spellings schema, Text.starts q (text.drop i) = false) : (strip schema text).text = text := by
  unfold strip
  split
  · rfl
  · have hnone : ∀ i, spelling? (spellings schema) (text.take i).getLast? (text.drop i) = none := fun i => by
      unfold spelling?
      split
      · next hb =>
        refine List.find?_eq_none.mpr fun q hq => ?_
        rw [startsKeyword_spelling hb hq, h i hb q hq]
        exact Bool.false_ne_true
      · rfl
    have hsame : stripFrom (spellings schema) ([] : Text).getLast? text = ⟨text, 0⟩ := stripFrom_of_none hnone rfl
    exact congrArg Stripped.text hsame

/-- A text without a region that starts with a number sign keeps its comments. -/
theorem Comment.convert_of_regions {text : Text} (h : ∀ r ∈ regions text, text[r.start]? ≠ some '#') :
    convert text = text := by
  refine convert_eq_self fun body hm => ?_
  obtain ⟨ms, ns, hp⟩ := List.append_of_mem hm
  have hback : text.drop (textOf ms).length = '#' :: body ++ textOf ns := drop_of_pieces hp rfl
  refine h ⟨.comment, (textOf ms).length, (textOf ms).length + ('#' :: body).length⟩
    (mem_regionsFrom.mpr ⟨ms, '#' :: body, ns, hp, by simp, rfl⟩) ?_
  rw [← List.head?_drop, hback]
  rfl

/-! ## All stages -/

namespace Translator

/-- A statement with nothing to convert. -/
structure Clean (schema query : Text) : Prop where
  /-- No interval is written in the code. -/
  noInterval : findKeywordFrom query Interval.keyword 0 = none
  /-- No function with another name is called in the code. -/
  noRename : ∀ r ∈ FunctionName.renames, findKeywordFrom query r.old 0 = none
  /-- Behind the name of the difference in code there is no parenthesis, not even with blanks in between. -/
  noDifference : ∀ i, regionAt? (regions query) i = none →
    startsKeyword TimeDifference.functionName (query.take i).getLast? (query.drop i) = true →
    ((query.drop (i + TimeDifference.functionName.length)).dropWhile isBlank).head? ≠ some '('
  /-- The marker stands nowhere, not even in a literal. -/
  noMarker : ¬ ['%', 's'] <:+: query
  /-- No name starts with the qualifier, neither in a literal nor in a comment. -/
  noQualifier : ∀ i, Qualifier.startsName (query.take i).getLast? = true →
    ∀ q ∈ Qualifier.spellings schema, Text.starts q (query.drop i) = false
  /-- No region starts with a number sign. -/
  noLineComment : ∀ r ∈ regions query, query[r.start]? ≠ some '#'

/-- Behind the end of a statement there is nothing to be found. -/
theorem clean_iff {schema query : Text} : Clean schema query ↔
    findKeywordFrom query Interval.keyword 0 = none ∧
      (∀ r ∈ FunctionName.renames, findKeywordFrom query r.old 0 = none) ∧
      (∀ i < query.length, regionAt? (regions query) i = none →
        startsKeyword TimeDifference.functionName (query.take i).getLast? (query.drop i) = true →
        ((query.drop (i + TimeDifference.functionName.length)).dropWhile isBlank).head? ≠ some '(') ∧
      ¬ ['%', 's'] <:+: query ∧
      (∀ i < query.length, Qualifier.startsName (query.take i).getLast? = true →
        ∀ q ∈ Qualifier.spellings schema, Text.starts q (query.drop i) = false) ∧
      ∀ r ∈ regions query, query[r.start]? ≠ some '#' := by
  constructor
  · rintro ⟨hinterval, hrename, hdifference, hmarker, hqualifier, hcomment⟩
    exact ⟨hinterval, hrename, fun i _ => hdifference i, hmarker, fun i _ => hqualifier i, hcomment⟩
  · rintro ⟨hinterval, hrename, hdifference, hmarker, hqualifier, hcomment⟩
    refine ⟨hinterval, hrename, fun i hcode hk => ?_, hmarker, fun i hb q hq => ?_, hcomment⟩
    · by_cases hi : i < query.length
      · exact hdifference i hi hcode hk
      · rw [List.drop_eq_nil_of_le (Nat.le_trans (Nat.le_of_not_lt hi) (Nat.le_add_right _ _))]
        rintro ⟨⟩
    · by_cases hi : i < query.length
      · exact hqualifier i hi hb q hq
      · rw [List.drop_eq_nil_of_le (Nat.le_of_not_lt hi), Bool.eq_false_iff]
        intro hstarts
        obtain ⟨v, u, hvu, hv⟩ := starts_iff.mp hstarts
        rw [(List.append_eq_nil_iff.mp hvu.symm).1] at hv
        have hpos := Qualifier.length_pos_of_mem_spellings hq
        rw [List.map_eq_nil_iff.mp hv.symm] at hpos
        exact absurd hpos (Nat.lt_irrefl 0)

/-- **Clean statements pass unchanged.** -/
theorem translate_clean {tr : Translator} {query : Text} (h : Clean tr.schema query) :
    tr.translate query = .ok query := by
  have hfind : ∀ {w : Text}, findKeywordFrom query w 0 = none → findKeyword w none query = none := fun hw => by
    simpa [findKeywordFrom] using hw
  have hkeyword : findKeyword Interval.keyword ([] : Text).getLast? query = none := hfind h.noInterval
  have hinterval : Interval.convert query = .ok query := Interval.convertFrom_of_none hkeyword
  have htimes : convertTimes query = .ok query := by
    rw [convertTimes, hinterval]
    exact TimeDifference.convert_of_no_call h.noDifference
  have hnames : convertNames query = query := by
    rw [convertNames, FunctionName.convert_of_none fun r hr => hfind (h.noRename r hr),
      Marker.convert_of_not_infix h.noMarker]
  have hrun : tr.run query = .ok query := by
    simp only [run, htimes, hnames, Qualifier.strip_of_none h.noQualifier, Comment.convert_of_regions h.noLineComment]
  rw [translate, hrun]
  rfl

/-- Names in literals, comments and longer names, a name without a call, and a quote without a partner. -/
theorem translate_clean_lookalikes :
    let query := "select 'interval', my_interval, iif(std (a)), timestampdiff /* # */ from x.lab.t, slab.u where b % s > \" -- if(".toList
    let tr : Translator := ⟨"lab".toList⟩
    Clean tr.schema query ∧ tr.translate query = .ok query := by
  intro query tr
  have hclean : Clean tr.schema query := clean_iff.mpr (by decide +kernel)
  exact ⟨hclean, translate_clean hclean⟩

end Translator

end SqlDialect
