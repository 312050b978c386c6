import SqlDialect.Interval.Convert
import SqlDialect.Proofs.Bytes.Base
import SqlDialect.Proofs.Bytes.Term

/-!
# Interval expressions by byte offsets

The sign in front of the keyword may be the last byte of anything, and the fragment for its error is widened to the
whole character. Behind the expressions that have been written, the search goes on at the offset where they end.

* `locate_eq`: an expression is located where its counterpart locates it.
* `intervalLoop_zero`: the conversion gives the same text or the same error.
-/

namespace SqlDialect.Bytes

open Text
open SqlDialect.Interval (Sign Term Expression)

variable {text rest : Text} {c : Char} {i j : Nat}

/-! ## The sign -/

/-- The sign in front of the keyword at an offset, with its offset. -/
def readSign (text : Text) (kw : Nat) : Checked (Except StageError (Sign × Nat)) := do
  let j ← skipBlanksLeft text kw
  let before ← byteBefore text j
  match before.bind Sign.ofChar? with
  | some sign => return .ok (sign, ← minus j 1)
  | none => return .error ⟨.signMissing, ← snippet text (j - 1) (kw + byteLength Interval.keyword)⟩

theorem not_wide_of_ofChar? {sign : Sign} (h : Sign.ofChar? c = some sign) : ¬ Wide c := fun hw => by
  rw [ofChar?_of_wide hw] at h
  cases h

/-- The character in front of the blanks that end at a position. -/
theorem drop_of_dropWhile {kw : Nat} {before : Text} (hkw : kw ≤ text.length)
    (h : (text.take kw).reverse.dropWhile isBlank = c :: before) :
    before.length < kw ∧ ∃ rest, text.drop before.length = c :: rest := by
  have hsplit : text.take kw = before.reverse ++ c :: ((text.take kw).reverse.takeWhile isBlank).reverse := by
    have hrev : (text.take kw).reverse = (text.take kw).reverse.takeWhile isBlank ++ c :: before := by
      rw [← h, List.takeWhile_append_dropWhile]
    have := congrArg List.reverse hrev
    rw [List.reverse_reverse] at this
    exact this.trans (by simp)
  have hlen := congrArg List.length hsplit
  rw [List.length_take_of_le hkw, List.length_append, List.length_reverse, List.length_cons] at hlen
  refine ⟨by omega, ((text.take kw).reverse.takeWhile isBlank).reverse ++ text.drop kw, ?_⟩
  conv => lhs; rw [← List.take_append_drop kw text, hsplit]
  rw [List.append_assoc, List.drop_left' (by simp), List.cons_append]

/-- The sign in front of a keyword. -/
theorem readSign_eq {kw : Nat} (h : Text.starts Interval.keyword (text.drop kw) = true) :
    readSign text (byteOffset text kw) =
      some ((Interval.readSign text kw).map fun s => (s.1, byteOffset text s.2)) := by
  have hstop := add_keyword_le h
  have hkw : kw ≤ text.length := Nat.le_trans (Nat.le_add_right ..) hstop
  rw [readSign, skipBlanksLeft_eq hkw, Interval.readSign, byteOffset_add_word h]
  cases hd : (text.take kw).reverse.dropWhile isBlank with
  | nil =>
    have hsnippet := snippet_eq (Nat.zero_le _) hstop
    rw [byteOffset_zero] at hsnippet
    rw [List.length_nil, byteOffset_zero]
    simp only [Option.bind_eq_bind, Option.bind_some, byteBefore, Nat.lt_irrefl, if_false, Option.pure_def,
      Option.bind_none, Nat.zero_sub, hsnippet]
    rfl
  | cons c before =>
    obtain ⟨hlt, rest, hdrop⟩ := drop_of_dropWhile hkw hd
    obtain ⟨b, hb, hmap⟩ := byteBefore_map (fun c hc => ofChar?_of_wide hc) (lt_of_drop hdrop)
    have hbind : b.bind Sign.ofChar? = Sign.ofChar? c := by
      rw [getLast?_take_next hdrop, Option.map_some] at hmap
      cases b <;> simp_all
    rw [List.length_cons]
    simp only [Option.bind_eq_bind, Option.bind_some]
    rw [hb, Option.bind_some, hbind]
    cases hsign : Sign.ofChar? c with
    | some sign =>
      simp only [byteOffset_succ_of_not_wide hdrop (not_wide_of_ofChar? hsign), minus_of_le (Nat.le_add_left ..),
        Nat.add_sub_cancel, Option.bind_some]
      rfl
    | none =>
      -- the last byte of the character
      have hsize := Char.utf8Size_pos c
      have hwithin : byteOffset text (before.length + 1) - 1 = byteOffset text before.length + (c.utf8Size - 1) := by
        rw [byteOffset_succ hdrop]
        omega
      simp only [hwithin, snippet_within hdrop (Nat.sub_lt hsize Nat.one_pos) (by omega) hstop, Option.bind_some]
      rfl

/-! ## Grouping parentheses -/

/-- Does a parenthesis at an offset hold a list of arguments or values? -/
def opensList (text : Text) (opener : Nat) : Checked Bool := do
  let before := Text.trimEnd (← slice text 0 opener)
  if (bytes before).getLast?.any isWord then do
    let word ← sliceFrom before ((bytes before).reverse.dropWhile isWord).length
    return !Interval.stopWords.any (Text.same word) || Interval.listWords.any (Text.same word)
  else return false

/-- The offset of the last parenthesis of the group at `opener` if the expression from `start` to `stop` fills it and
it only groups. -/
def groupEnd (text : Text) (opener start stop : Nat) : Checked (Option Nat) := do
  let b ← byte? text opener
  if b ≠ '(' then return none
  else do
    let inner ← skipTrivia text (opener + 1)
    if inner ≠ start then return none
    else do
      let close ← skipBlanks text stop
      let closing ← findClosing text opener
      if closing ≠ some close then return none
      else do
        let list ← opensList text opener
        return if list then none else some close

theorem groupEnd_ge {opener start stop close : Nat} (h : groupEnd text opener start stop = some (some close)) :
    stop ≤ close := by
  obtain ⟨b, -, h⟩ := Option.bind_eq_some_iff.mp h
  split at h
  · cases h
  · obtain ⟨inner, -, h⟩ := Option.bind_eq_some_iff.mp h
    split at h
    · cases h
    · obtain ⟨behind, hbehind, h⟩ := Option.bind_eq_some_iff.mp h
      obtain ⟨closing, -, h⟩ := Option.bind_eq_some_iff.mp h
      split at h
      · cases h
      · obtain ⟨list, -, h⟩ := Option.bind_eq_some_iff.mp h
        cases list with
        | true => cases h
        | false =>
          cases h
          exact skipBlanks_le hbehind

/-- The last word of a text starts at the same offset when it is read byte by byte. -/
theorem dropWhile_bytes (t : Text) :
    ((bytes t).reverse.dropWhile isWord).length = byteLength (t.reverse.dropWhile isWord).reverse := by
  have hrev : ∀ r : Text, ((bytes r.reverse).reverse.dropWhile isWord).length =
      byteLength (r.dropWhile isWord).reverse := fun r => by
    induction r with
    | nil => rfl
    | cons c r ih =>
      have hbytes : (bytes (c :: r).reverse).reverse = (charBytes c).reverse ++ (bytes r.reverse).reverse := by
        rw [List.reverse_cons, bytes_append, List.reverse_append, bytes_cons]
        simp [bytes]
      rw [hbytes, List.dropWhile_cons]
      cases hc : isWord c with
      | true =>
        rw [if_pos rfl, ← ih, List.dropWhile_append_of_pos]
        exact fun b hb => isWord_charBytes hc b (List.mem_reverse.mp hb)
      | false =>
        rw [if_neg (by simp), charBytes_of_not_wide (not_wide_of_isWord hc), List.reverse_singleton,
          List.singleton_append, List.dropWhile_cons, hc, if_neg (by simp), List.length_cons, List.length_reverse,
          length_bytes, List.reverse_cons, byteLength_append]
        simp [byteLength, utf8Size_of_not_wide (not_wide_of_isWord hc)]
  rw [← hrev, List.reverse_reverse]

/-- The list in front of which a name stands. -/
theorem opensList_eq (hi : i ≤ text.length) :
    opensList text (byteOffset text i) = some (Interval.opensList (text.take i)) := by
  have hslice := slice_byteOffset (Nat.zero_le i) hi
  rw [byteOffset_zero, Text.slice, List.drop_zero] at hslice
  rw [opensList, hslice, Interval.opensList, Interval.lastWord]
  simp only [Option.bind_eq_bind, Option.bind_some, any_getLast?_bytes, dropWhile_bytes]
  generalize Text.trimEnd (text.take i) = before
  have hsplit : before = (before.reverse.dropWhile isWord).reverse ++ (before.reverse.takeWhile isWord).reverse := by
    rw [← List.reverse_append, List.takeWhile_append_dropWhile, List.reverse_reverse]
  have hword : sliceFrom before (byteLength (before.reverse.dropWhile isWord).reverse) =
      some (before.reverse.takeWhile isWord).reverse := by
    generalize (before.reverse.dropWhile isWord).reverse = front at hsplit
    generalize (before.reverse.takeWhile isWord).reverse = word at hsplit
    subst hsplit
    rw [byteLength_left front word, sliceFrom_byteOffset (by simp), List.drop_left]
  have hempty : (before.reverse.takeWhile isWord).reverse.isEmpty = !before.getLast?.any isWord := by
    rw [List.isEmpty_reverse, List.getLast?_eq_head?_reverse]
    cases before.reverse with
    | nil => rfl
    | cons c t =>
      rw [List.takeWhile_cons, List.head?_cons, Option.any_some]
      cases isWord c <;> rfl
  rw [hword, hempty]
  cases before.getLast?.any isWord <;> rfl

theorem byteOffset_inj (hi : i ≤ text.length) (hj : j ≤ text.length) :
    byteOffset text i = byteOffset text j ↔ i = j := by
  have h₁ := byteOffset_lt_iff (i := i) hj
  have h₂ := byteOffset_lt_iff (i := j) hi
  omega

/-- Comparing the offset of a closing delimiter compares its position. -/
theorem closing_byteOffset_iff (hj : j ≤ text.length) :
    ((closingOffset? (text.drop i)).map fun n => byteOffset text (i + n)) = some (byteOffset text j) ↔
      SqlDialect.findClosing text i = some j := by
  rw [SqlDialect.findClosing]
  cases hn : closingOffset? (text.drop i) with
  | none => simp
  | some n =>
    have hlt := closingOffset?_lt hn
    rw [List.length_drop] at hlt
    rw [Option.map_some, Option.map_some, Option.some.injEq, Option.some.injEq, byteOffset_inj (by omega) hj]

/-- The end of a group that only groups. -/
theorem groupEnd_eq {opener start stop : Nat} (hopener : opener < text.length) (hstart : start ≤ text.length)
    (hstop : stop ≤ text.length) :
    groupEnd text (byteOffset text opener) (byteOffset text start) (byteOffset text stop) =
      some ((Interval.groupEnd? text opener start stop).map (byteOffset text)) := by
  have h := List.drop_eq_getElem_cons hopener
  have hget : text[opener]? = some text[opener] := List.getElem?_eq_getElem hopener
  have hfirst : (text[opener]? = some '(') = (text[opener] = '(') := by rw [hget, Option.some.injEq]
  generalize text[opener] = c at h hfirst
  rw [groupEnd, Interval.groupEnd?]
  simp only [hfirst]
  by_cases hc : c = '('
  · subst hc
    have hw : ¬ Wide '(' := by decide
    have hinner : opener + 1 + Interval.triviaLength (text.drop (opener + 1)) ≤ text.length := by
      have := triviaLength_le (text.drop (opener + 1))
      rw [List.length_drop] at this
      omega
    have hclose : stop + ((text.drop stop).takeWhile isBlank).length ≤ text.length := by
      have := (List.takeWhile_prefix (l := text.drop stop) isBlank).length_le
      rw [List.length_drop] at this
      omega
    simp only [byte?_byteOffset h hw, Option.bind_eq_bind, Option.bind_some, ne_eq, not_true, if_false,
      ← byteOffset_succ_of_not_wide h hw, skipTrivia_eq, skipBlanks_eq, findClosing_eq,
      opensList_eq (Nat.le_of_lt hopener), byteOffset_inj hinner hstart, closing_byteOffset_iff hclose]
    by_cases h₁ : opener + 1 + Interval.triviaLength (text.drop (opener + 1)) = start
    · by_cases h₂ : SqlDialect.findClosing text opener = some (stop + ((text.drop stop).takeWhile isBlank).length)
      · cases h₃ : Interval.opensList (text.take opener) <;> simp [h₁, h₂]
      · simp [h₁, h₂]
    · simp [h₁]
  · obtain ⟨b, hb, hne⟩ := byte?_of_char h hc fun b hw => ne_of_wide hw (by decide)
    simp [hb, hc, hne]

/-! ## The whole expression -/

/-- The interval expression whose first keyword stands at an offset. -/
def locate (text : Text) (kw : Nat) : Checked (Except StageError Expression) := do
  match ← readSign text kw with
  | .error e => return .error e
  | .ok (sign, signAt) =>
    match ← readBase text signAt (kw + byteLength Interval.keyword) with
    | .error e => return .error e
    | .ok base =>
      match ← parseTerms text sign kw with
      | .error e => return .error e
      | .ok (terms, stop) =>
        match base.group with
        | none => return .ok ⟨base.text, terms, base.start, stop⟩
        | some opener =>
          match ← groupEnd text opener base.start stop with
          | some close => return .ok ⟨base.text, terms, opener, close + 1⟩
          | none => return .ok ⟨base.text, terms, base.start, stop⟩

/-- An expression does not end in front of its first keyword. -/
theorem locate_ge {kw : Nat} {e : Expression} (h : locate text kw = some (.ok e)) :
    kw + byteLength Interval.keyword ≤ e.stop := by
  obtain ⟨sign, -, h⟩ := Option.bind_eq_some_iff.mp h
  cases sign with
  | error e => cases h
  | ok s =>
    obtain ⟨base, -, h⟩ := Option.bind_eq_some_iff.mp h
    cases base with
    | error e => cases h
    | ok base =>
      obtain ⟨terms, hterms, h⟩ := Option.bind_eq_some_iff.mp h
      cases terms with
      | error e => cases h
      | ok t =>
        have hstop := parseTerms_le hterms
        simp only at h
        split at h
        · cases h
          exact hstop
        · obtain ⟨close, hclose, h⟩ := Option.bind_eq_some_iff.mp h
          cases close with
          | some close =>
            cases h
            have := groupEnd_ge hclose
            simp only
            omega
          | none =>
            cases h
            exact hstop

/-- An expression with the offsets of its positions. -/
def expressionOffset (text : Text) (e : Expression) : Expression :=
  ⟨e.base, e.terms, byteOffset text e.start, byteOffset text e.stop⟩

/-- The sign stands in front of the keyword. -/
theorem readSign_lt {kw signAt : Nat} {sign : Sign} (hkw : kw ≤ text.length)
    (h : Interval.readSign text kw = .ok (sign, signAt)) :
    signAt < kw ∧ ∃ s rest, text.drop signAt = s :: rest ∧ ¬ Wide s := by
  unfold Interval.readSign at h
  split at h
  · cases h
  · next c before hd =>
    split at h
    · cases h
    · next hsign =>
      obtain ⟨hlt, rest, hdrop⟩ := drop_of_dropWhile hkw hd
      cases h
      exact ⟨hlt, c, rest, hdrop, not_wide_of_ofChar? hsign⟩

/-- The base starts in front of the sign, and so does the bracket that it stands behind. -/
theorem readBase_le {signAt stop : Nat} {base : Interval.Base} (h : Interval.readBase text signAt stop = .ok base) :
    base.start ≤ signAt ∧ ∀ opener ∈ base.group, opener < signAt := by
  unfold Interval.readBase at h
  split at h
  · cases h
  · next b hb =>
    have hle : Interval.baseStart text b.start signAt ≤ signAt := Nat.min_le_right ..
    simp only at h
    split at h
    · cases h
    · cases b with
      | plain start =>
        cases h
        exact ⟨hle, fun _ h => by cases h⟩
      | group opener =>
        cases h
        refine ⟨hle, fun o ho => ?_⟩
        obtain rfl := Option.mem_some.mp ho
        exact Nat.lt_of_lt_of_le (Interval.boundaryBefore_lt hb) (length_marksBefore_le text signAt)

/-- A group ends with a closing parenthesis of the text. -/
theorem groupEnd_lt {opener start stop close : Nat}
    (h : Interval.groupEnd? text opener start stop = some close) :
    close < text.length ∧ byteOffset text close + 1 = byteOffset text (close + 1) := by
  unfold Interval.groupEnd? at h
  simp only at h
  split at h
  · next hg =>
    obtain ⟨-, -, hclosing, -⟩ := hg
    obtain rfl := Option.some.inj h
    obtain ⟨n, hn, hclose⟩ := Option.map_eq_some_iff.mp hclosing
    have hlt := closingOffset?_lt hn
    rw [← hclose]
    cases hd : text.drop opener with
    | nil =>
      rw [hd] at hn
      cases hn
    | cons c rest =>
      rw [List.length_drop] at hlt
      rw [hd] at hn
      exact ⟨by omega, byteOffset_behind_closing hd hn⟩
  · cases h

/-- An interval expression. -/
theorem locate_eq {kw : Nat} (h : Text.starts Interval.keyword (text.drop kw) = true) :
    locate text (byteOffset text kw) = some ((Interval.locate text kw).map (expressionOffset text)) := by
  have hlen := add_keyword_le h
  rw [locate, readSign_eq h, Interval.locate, byteOffset_add_word h]
  cases hsign : Interval.readSign text kw with
  | error e => rfl
  | ok t =>
    obtain ⟨sign, signAt⟩ := t
    obtain ⟨hlt, s, rest, hdrop, hw⟩ := readSign_lt (by omega) hsign
    simp only [Except.map, Option.bind_eq_bind, Option.bind_some]
    rw [readBase_eq hdrop hw (by omega) (by omega)]
    cases hbase : Interval.readBase text signAt (kw + Interval.keyword.length) with
    | error e => rfl
    | ok base =>
      obtain ⟨hstart, hgroup⟩ := readBase_le hbase
      simp only [Except.map, Option.bind_some]
      rw [parseTerms_eq sign h]
      cases hterms : Interval.readTerms sign (text.drop kw) with
      | error e => rfl
      | ok t =>
        obtain ⟨terms, n⟩ := t
        have hstop := readTerms_le h hterms
        obtain ⟨baseText, start, group⟩ := base
        cases group with
        | none => rfl
        | some opener =>
          have hopener := hgroup opener rfl
          simp only [Except.map, Option.bind_some, baseOffset, Option.map_some]
          rw [groupEnd_eq (by omega) (Nat.le_trans hstart (by omega)) hstop]
          cases hclose : Interval.groupEnd? text opener start (kw + n) with
          | none => rfl
          | some close =>
            simp only [Option.map_some, Option.bind_some, (groupEnd_lt hclose).2]
            rfl

/-- An interval expression lies within the text. -/
theorem locate_le {kw : Nat} {e : Expression} (h : Text.starts Interval.keyword (text.drop kw) = true)
    (he : Interval.locate text kw = .ok e) : e.start ≤ e.stop ∧ e.stop ≤ text.length := by
  have hlen := add_keyword_le h
  unfold Interval.locate at he
  split at he
  · cases he
  · next sign signAt hsign =>
    obtain ⟨hlt, -⟩ := readSign_lt (by omega) hsign
    split at he
    · cases he
    · next base hbase =>
      obtain ⟨hstart, hgroup⟩ := readBase_le hbase
      split at he
      · cases he
      · next terms n hterms =>
        have hstop := readTerms_le h hterms
        simp only at he
        split at he
        · next opener close hg =>
          cases he
          obtain ⟨o, ho, hmap⟩ := Option.bind_eq_some_iff.mp hg
          obtain ⟨c, hc, hpair⟩ := Option.map_eq_some_iff.mp hmap
          cases hpair
          have hopener := hgroup opener ho
          have hle := Interval.groupEnd?_ge hc
          have hclose := (groupEnd_lt hc).1
          exact ⟨by simp only; omega, hclose⟩
        · cases he
          exact ⟨by simp only; omega, hstop⟩

/-! ## The conversion -/

/-- The text with the expressions converted whose first keyword stands behind the offset `cursor`. What an expression
takes the place of is cut out first, for the log. -/
def intervalLoop (text : Text) (cursor : Nat) : Checked (Except StageError Text) :=
  match _k : findKeyword text Interval.keyword cursor with
  | none => none
  | some none => return .ok text
  | some (some kw) =>
    match _e : locate text kw with
    | none => none
    | some (.error e) => return .error e
    | some (.ok e) => do
      let _original ← slice text e.start e.stop
      match _r : replaceRange text e.start e.stop e.render with
      | none => none
      | some replaced => intervalLoop replaced (e.start + byteLength e.render)
termination_by byteLength text - cursor
decreasing_by
  have hpos : 0 < byteLength Interval.keyword := by decide +kernel
  have := findKeyword_le _k
  have := locate_ge _e
  have := byteLength_replaceRange _r
  omega

theorem intervalLoop_of_keyword {kw : Nat} (h : findKeyword text Interval.keyword i = some (some kw)) :
    intervalLoop text i = (do
      match ← locate text kw with
      | .error e => return .error e
      | .ok e =>
        let _original ← slice text e.start e.stop
        let replaced ← replaceRange text e.start e.stop e.render
        intervalLoop replaced (e.start + byteLength e.render)) := by
  rw [intervalLoop, h]
  simp only
  rcases locate text kw with _ | e | e
  · rfl
  · rfl
  · simp only [Option.bind_eq_bind, Option.bind_some]
    congr 1
    funext original
    rcases replaceRange text e.start e.stop e.render with _ | replaced <;> rfl

theorem startsAscii_keyword : StartsAscii Interval.keyword := ⟨'i', "nterval".toList, by decide +kernel, by decide⟩

/-- The conversion of interval expressions. -/
theorem intervalLoop_eq (done rest : Text) :
    intervalLoop (done ++ rest) (byteLength done) = some (Interval.convertFrom done rest) := by
  fun_induction Interval.convertFrom done rest with
  | case1 done rest hk =>
    rw [intervalLoop, findKeyword_append startsAscii_keyword, hk]
    rfl
  | case2 done rest n hk e he =>
    rw [intervalLoop_of_keyword (findKeyword_found startsAscii_keyword hk)]
    simp only [Option.bind_eq_bind, Option.bind_some, locate_eq (starts_of_findKeyword done hk), he]
    rfl
  | case3 done rest n hk e he ih =>
    obtain ⟨hstart, hstop⟩ := locate_le (starts_of_findKeyword done hk) he
    have hnext : byteOffset (done ++ rest) e.start + byteLength e.render =
        byteLength ((done ++ rest).take e.start ++ e.render) := by rw [byteLength_append, byteOffset]
    have hrender : (expressionOffset (done ++ rest) e).render = e.render := rfl
    rw [intervalLoop_of_keyword (findKeyword_found startsAscii_keyword hk)]
    simp only [Option.bind_eq_bind, Option.bind_some, locate_eq (starts_of_findKeyword done hk), he,
      Except.map, hrender]
    simp only [expressionOffset, slice_byteOffset hstart hstop, replaceRange_byteOffset hstart hstop, Option.bind_some,
      hnext]
    exact ih

/-- The conversion of a whole text. -/
theorem intervalLoop_zero (text : Text) : intervalLoop text 0 = some (Interval.convert text) := intervalLoop_eq [] text

end SqlDialect.Bytes
