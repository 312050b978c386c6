import SqlDialect.Proofs.Bytes.Region
import SqlDialect.Proofs.Bytes.Split
import SqlDialect.Proofs.Bytes.Trivia

/-!
# The base of an interval by byte offsets

The base is found by a search to the left from the sign to its boundary, a search to the right for the last word that
ends a base, and by trimming. Every offset that these searches come to belongs to a position, so the base may be cut out
of the text.

* `baseBoundary_eq`, `cutLoop_eq`, `trimTriviaEnd_eq`: the searches find what their counterparts find.
* `readBase_eq`: the base is the same.
-/

namespace SqlDialect.Bytes

open Text
open SqlDialect.Interval (Boundary stopWords)

variable {text rest : Text} {c : Char} {i j : Nat}

/-! ## The boundary on the left -/

/-- The boundary of the operand in front of an offset. -/
def baseBoundary (text : Text) (rs : List Span) (signAt i : Nat) : Checked (Except StageError Boundary) :=
  if 0 < i then
    match _h : minus i 1 with
    | none => none
    | some before =>
      match _r : regionAt rs before with
      | some r => baseBoundary text rs signAt r.start
      | none => do
        let b ← byte? text before
        if isCloser b || isQuote b then
          match _o : findOpening text before with
          | some (some opener) => baseBoundary text rs signAt opener
          | some none => return .error ⟨.baseUnbalanced, ← snippet text before (signAt + 1)⟩
          | none => none
        else if isOpener b then return .ok (.group before)
        else if Interval.isSeparator b then return .ok (.plain (before + 1))
        else baseBoundary text rs signAt before
  else return .ok (.plain 0)
termination_by i
decreasing_by
  · exact Nat.lt_of_le_of_lt (regionAt_le _r) (lt_of_minus _h)
  · exact Nat.lt_of_le_of_lt (findOpening_le _o) (lt_of_minus _h)
  · exact lt_of_minus _h

/-- A step of the search. -/
theorem baseBoundary_of_pos (rs : List Span) (signAt : Nat) (hi : 0 < i) :
    baseBoundary text rs signAt i = (do
      match regionAt rs (i - 1) with
      | some r => baseBoundary text rs signAt r.start
      | none =>
        let b ← byte? text (i - 1)
        if isCloser b || isQuote b then
          match ← findOpening text (i - 1) with
          | some opener => baseBoundary text rs signAt opener
          | none => return .error ⟨.baseUnbalanced, ← snippet text (i - 1) (signAt + 1)⟩
        else if isOpener b then return .ok (.group (i - 1))
        else if Interval.isSeparator b then return .ok (.plain (i - 1 + 1))
        else baseBoundary text rs signAt (i - 1)) := by
  rw [baseBoundary, if_pos hi, minus_of_le hi]
  simp only
  rcases regionAt rs (i - 1) with _ | r
  · simp only
    congr 1
    funext b
    rcases findOpening text (i - 1) with _ | _ | opener <;> rfl
  · rfl

/-- A boundary with the offset of its position. -/
def boundaryOffset (text : Text) : Boundary → Boundary
  | .group opener => .group (byteOffset text opener)
  | .plain start => .plain (byteOffset text start)

/-- What the search for a boundary gives, with offsets and with the fragment for its error. -/
def boundaryResult (text : Text) (signAt : Nat) : Except Nat Boundary → Except StageError Boundary
  | .ok b => .ok (boundaryOffset text b)
  | .error i => .error ⟨.baseUnbalanced, Text.slice text i (signAt + 1)⟩

theorem isSeparator_of_wide (h : Wide c) : Interval.isSeparator c = false := by
  simp [Interval.isSeparator, ne_of_wide h (by decide : ¬ Wide ','), ne_of_wide h (by decide : ¬ Wide '='),
    ne_of_wide h (by decide : ¬ Wide '<'), ne_of_wide h (by decide : ¬ Wide '>'), ne_of_wide h (by decide : ¬ Wide ';')]

/-- The marks in front of an earlier position. -/
theorem drop_marksBefore (hi : i ≤ text.length) (hj : j ≤ i) :
    (marksBefore text i).drop (i - j) = marksBefore text j := by
  rw [marksBefore, List.drop_reverse, List.length_take, length_marks, Nat.min_eq_left hi, List.take_take, marksBefore]
  congr 2
  omega

section Boundary

variable (signAt : Nat)

/-- A literal or comment is passed over. -/
theorem baseBoundary_region (h : text.drop i = c :: rest) {r : Region} (hr : regionAt? (regions text) i = some r) :
    baseBoundary text (spans text) signAt (byteOffset text (i + 1)) =
      baseBoundary text (spans text) signAt (byteOffset text r.start) := by
  obtain ⟨hpos, hregion⟩ := step_left h
  rw [baseBoundary_of_pos _ _ hpos, hregion, hr]
  rfl

/-- A character beyond ASCII is passed over. -/
theorem baseBoundary_wide (h : text.drop i = c :: rest) (hr : regionAt? (regions text) i = none) (hw : Wide c) :
    baseBoundary text (spans text) signAt (byteOffset text (i + 1)) =
      baseBoundary text (spans text) signAt (byteOffset text i) :=
  step_wide_left h hw hr fun j b hj hb hwb => by
    rw [baseBoundary_of_pos _ _ (Nat.succ_pos j)]
    simp only [Option.bind_eq_bind, Option.bind_some, Nat.succ_sub_one, hj, hb, isCloser_of_wide hwb,
      isOpener_of_wide hwb, isQuote_of_wide hwb, isSeparator_of_wide hwb]
    rfl

/-- At a character of ASCII that is code. -/
theorem baseBoundary_code (h : text.drop i = c :: rest) (hr : regionAt? (regions text) i = none) (hw : ¬ Wide c) :
    baseBoundary text (spans text) signAt (byteOffset text (i + 1)) = (do
      if isCloser c || isQuote c then
        match ← findOpening text (byteOffset text i) with
        | some opener => baseBoundary text (spans text) signAt opener
        | none => return .error ⟨.baseUnbalanced, ← snippet text (byteOffset text i) (signAt + 1)⟩
      else if isOpener c then return .ok (.group (byteOffset text i))
      else if Interval.isSeparator c then return .ok (.plain (byteOffset text (i + 1)))
      else baseBoundary text (spans text) signAt (byteOffset text i)) := by
  obtain ⟨hpos, hlast, hregion⟩ := step_code_left h hr hw
  rw [baseBoundary_of_pos _ _ hpos, hlast, ← byteOffset_succ_of_not_wide h hw]
  simp only [Option.bind_eq_bind, Option.bind_some, hregion, byte?_byteOffset h hw]

end Boundary

/-- The boundary of the operand in front of a position. -/
theorem baseBoundary_eq {signAt : Nat} {s : Char} (hs : text.drop signAt = s :: rest) (hw : ¬ Wide s)
    (hi : i ≤ signAt) :
    baseBoundary text (spans text) (byteOffset text signAt) (byteOffset text i) =
      some (boundaryResult text signAt (Interval.boundaryBefore (marksBefore text i))) := by
  induction i using Nat.strongRecOn with
  | ind i ih =>
    cases i with
    | zero =>
      rw [baseBoundary, byteOffset_zero, if_neg (Nat.lt_irrefl 0), marksBefore, List.take_zero, List.reverse_nil,
        Interval.boundaryBefore]
      rfl
    | succ i =>
      have hlt : i < text.length := Nat.lt_trans hi (lt_of_drop hs)
      have h := List.drop_eq_getElem_cons hlt
      generalize text[i] = c at h
      have hcode := marksBefore_succ h
      cases hr : regionAt? (regions text) i with
      | some r =>
        have hstart := (regionAt?_covers hr).1
        rw [baseBoundary_region _ h hr,
          skip_region (f := Interval.boundaryBefore) (fun _ _ => by rw [Interval.boundaryBefore]) hlt hr,
          ih _ (by omega) (by omega)]
      | none =>
        rw [hr] at hcode
        rw [hcode, Option.isNone_none]
        have hih := ih i (Nat.lt_succ_self i) (Nat.le_of_succ_le hi)
        have hlen := length_marksBefore (Nat.le_of_lt hlt)
        by_cases hwc : Wide c
        · rw [baseBoundary_wide _ h hr hwc, Interval.boundaryBefore, hih]
          simp [isQuote_of_wide hwc, isCloser_of_wide hwc, isOpener_of_wide hwc, isSeparator_of_wide hwc]
        · have hfragment : snippet text (byteOffset text i) (byteOffset text signAt + 1) =
              some (Text.slice text i (signAt + 1)) := by
            rw [← byteOffset_succ_of_not_wide hs hw, snippet_eq (by omega) (lt_of_drop hs)]
          rw [baseBoundary_code _ h hr hwc, Interval.boundaryBefore]
          simp only [Option.bind_eq_bind, Option.bind_some, findOpening_eq h hwc hr, hlen]
          by_cases hq : isQuote c = true
          · simp only [hq, Bool.or_true, if_true, hfragment, Option.bind_some]
            rfl
          · by_cases hcloser : isCloser c = true
            · simp only [hcloser, Bool.true_or, if_true, if_neg hq]
              cases ho : openingIn [c] (marksBefore text i) with
              | none =>
                simp only [Option.map_none, hfragment, Option.bind_some]
                rfl
              | some opener =>
                have hopener : opener < i := by
                  have := openingIn_lt ho
                  omega
                simp only [Option.map_some]
                rw [ih opener (by omega) (by omega), drop_marksBefore (Nat.le_of_lt hlt) (Nat.le_of_lt hopener)]
            · rw [if_neg (by simp [hq, hcloser]), if_neg hq, if_neg hcloser]
              by_cases ho : isOpener c = true
              · rw [if_pos ho, if_pos ho]
                rfl
              · rw [if_neg ho, if_neg ho]
                by_cases hsep : Interval.isSeparator c = true
                · rw [if_pos hsep, if_pos hsep]
                  rfl
                · rw [if_neg hsep, if_neg hsep, hih]

/-! ## Behind the stop words -/

/-- The first of some words that stands at an offset. -/
def findWord (text : Text) (i : Nat) : List Text → Checked (Option Text)
  | [] => return none
  | word :: words => do
    let found ← keywordAt text i word
    if found then return some word else findWord text i words

theorem findWord_mem {words : List Text} {word : Text} (h : findWord text i words = some (some word)) :
    word ∈ words := by
  induction words with
  | nil => cases h
  | cons w words ih =>
    obtain ⟨found, -, h⟩ := Option.bind_eq_some_iff.mp h
    split at h
    · cases h
      exact List.mem_cons_self
    · exact List.mem_cons_of_mem _ (ih h)

/-- A word that is found is not empty if none of the words is. -/
theorem findWord_pos {words : List Text} {word : Text} (hwords : ∀ word ∈ words, word ≠ [])
    (h : findWord text i words = some (some word)) : 0 < byteLength word :=
  byteLength_pos (hwords word (findWord_mem h))

/-- The offset behind the last stop word in front of the offset `limit`, where `start` is the one found so far. -/
def cutLoop (text : Text) (limit start i : Nat) : Checked Nat :=
  if i < limit then do
    let b ← byte? text i
    if isQuote b || isOpener b then
      match _h : findClosing text i with
      | some (some close) =>
        if close < limit then cutLoop text limit start (close + 1) else cutLoop text limit start (i + 1)
      | some none => cutLoop text limit start (i + 1)
      | none => none
    else
      match _h : skipComment text i with
      | some (some next) => cutLoop text limit start next
      | some none =>
        match _w : findWord text i stopWords with
        | some (some word) => cutLoop text limit (i + byteLength word) (i + byteLength word)
        | some none => cutLoop text limit start (i + 1)
        | none => none
      | none => none
  else return start
termination_by limit - i
decreasing_by
  · have := findClosing_le _h
    omega
  · omega
  · omega
  · have := skipComment_lt _h
    omega
  · have := findWord_pos (fun word hword => (Interval.stopWords_word word hword).1) _w
    omega
  · omega

/-- A word is met at a position. -/
theorem findWord_eq (words : List Text) (hi : i ≤ text.length) :
    findWord text (byteOffset text i) words =
      some (words.find? (startsKeyword · (text.take i).getLast? (text.drop i))) := by
  induction words with
  | nil => rfl
  | cons word words ih =>
    rw [findWord, keywordAt_eq word hi, List.find?_cons]
    cases startsKeyword word (text.take i).getLast? (text.drop i) with
    | true => rfl
    | false => exact ih

theorem findWord_wide {b : Char} (hb : byte? text i = some b) (hw : Wide b) {words : List Text}
    (hwords : ∀ word ∈ words, StartsAscii word) : findWord text i words = some none := by
  induction words with
  | nil => rfl
  | cons word words ih =>
    obtain ⟨d, w, rfl, hd⟩ := hwords word List.mem_cons_self
    rw [findWord, keywordAt_wide hb hw hd]
    exact ih fun word h => hwords word (List.mem_cons_of_mem _ h)

theorem startsAscii_stopWords : ∀ word ∈ stopWords, StartsAscii word := by
  have hhead : ∀ word ∈ stopWords, word.head?.any (fun d => decide (¬ Wide d)) = true := by decide +kernel
  exact fun word hword => startsAscii_of_head? (hhead word hword)

section Cut

variable {limit start : Nat}

theorem cutLoop_of_byte {b : Char} (hi : i < limit) (hb : byte? text i = some b) :
    cutLoop text limit start i = (do
      if isQuote b || isOpener b then
        match ← findClosing text i with
        | some close => if close < limit then cutLoop text limit start (close + 1) else cutLoop text limit start (i + 1)
        | none => cutLoop text limit start (i + 1)
      else
        match ← skipComment text i with
        | some next => cutLoop text limit start next
        | none =>
          match ← findWord text i stopWords with
          | some word => cutLoop text limit (i + byteLength word) (i + byteLength word)
          | none => cutLoop text limit start (i + 1)) := by
  rw [cutLoop, if_pos hi, hb]
  simp only [Option.bind_eq_bind, Option.bind_some]
  split
  · rcases findClosing text i with _ | _ | close <;> rfl
  · rcases skipComment text i with _ | _ | next
    · rfl
    · rcases findWord text i stopWords with _ | _ | word <;> rfl
    · rfl

theorem cutLoop_wide {b : Char} (hb : byte? text i = some b) (hw : Wide b) :
    cutLoop text limit start i = cutLoop text limit start (i + 1) := by
  by_cases hi : i < limit
  · rw [cutLoop_of_byte hi hb, opens_of_wide hw, skipComment_wide hb hw]
    simp only [Option.bind_eq_bind, Option.bind_some, findWord_wide hb hw startsAscii_stopWords]
    rfl
  · rw [cutLoop, cutLoop, if_neg hi, if_neg (by omega)]

/-- At a position where nothing opens. -/
theorem cutLoop_code (h : text.drop i = c :: rest) (hi : byteOffset text i < limit)
    (hq : (isQuote c || isOpener c) = false) (hn : commentTail? c rest = none) :
    cutLoop text limit start (byteOffset text i) =
      match stopWords.find? (startsKeyword · (text.take i).getLast? (text.drop i)) with
      | some word =>
        cutLoop text limit (byteOffset text i + byteLength word) (byteOffset text i + byteLength word)
      | none => cutLoop text limit start (byteOffset text i + 1) := by
  obtain ⟨b, hb, hqb⟩ := byte?_of_char h hq fun b hw => opens_of_wide hw
  rw [cutLoop_of_byte hi hb, hqb, if_neg (by simp), skipComment_eq h, hn]
  simp only [Option.map_none, Option.bind_eq_bind, Option.bind_some, findWord_eq stopWords (Nat.le_of_lt (lt_of_drop h))]

/-- The cut behind the last stop word in front of a position. -/
theorem cutLoop_eq (hlimit : limit ≤ text.length) (hi : i ≤ text.length) :
    cutLoop text (byteOffset text limit) (byteOffset text start) (byteOffset text i) =
      some (byteOffset text (Interval.stopWordCut limit (text.take i).getLast? i start (text.drop i))) := by
  have hbound : ∀ {i}, ¬ limit ≤ i → byteOffset text i < byteOffset text limit := fun hlt =>
    (byteOffset_lt_iff hlimit).mpr (Nat.lt_of_not_le hlt)
  generalize hbefore : (text.take i).getLast? = before
  generalize h : text.drop i = rest
  fun_induction Interval.stopWordCut limit before i start rest with
  | case1 before i start =>
    have hlen := List.drop_eq_nil_iff.mp h
    rw [cutLoop, if_neg (by rw [byteOffset_lt_iff hlimit]; omega)]
    rfl
  | case2 before i start c rest hle =>
    rw [cutLoop, if_neg (by rw [byteOffset_lt_iff hlimit]; omega)]
    rfl
  | case3 before i start c rest hlt hq n hn ih =>
    have hw := not_wide_of_opens hq
    obtain ⟨hclosing, hclose⟩ := Option.filter_eq_some_iff.mp hn
    have hle := closingOffset?_lt hclosing
    have hlen := length_of_drop h
    rw [List.length_cons] at hle
    rw [cutLoop_of_byte (hbound hlt) (byte?_byteOffset h hw), if_pos hq,
      findClosing_eq, h, hclosing]
    simp only [Option.map_some, Option.bind_eq_bind, Option.bind_some]
    rw [if_pos ((byteOffset_lt_iff hlimit).mpr (by simpa using hclose)), byteOffset_behind_closing h hclosing,
      ih (by omega) (getLast?_take_succ h n) (drop_add_succ h n)]
  | case4 before i start c rest hlt hq hn ih =>
    have hw := not_wide_of_opens hq
    rw [cutLoop_of_byte (hbound hlt) (byte?_byteOffset h hw), if_pos hq,
      findClosing_eq, h, ← byteOffset_succ_of_not_wide h hw]
    rw [← ih (lt_of_drop h) (getLast?_take_next h) (drop_succ h)]
    cases hclosing : closingOffset? (c :: rest) with
    | none => rfl
    | some n =>
      have hno : ¬ i + n < limit := by
        rw [hclosing, Option.filter_some] at hn
        split at hn
        · cases hn
        · next hno => simpa using hno
      simp only [Option.map_some, Option.bind_eq_bind, Option.bind_some]
      rw [if_neg (by rwa [byteOffset_lt_iff hlimit])]
  | case5 before i start c rest hlt hq n hn ih =>
    have hr := regionTail?_of_commentTail? hn
    obtain ⟨hle, hdrop⟩ := next_of_regionTail? h hr
    have hw := not_wide_of_commentTail? hn
    rw [cutLoop_of_byte (hbound hlt) (byte?_byteOffset h hw), if_neg hq,
      skipComment_eq h, hn]
    simp only [Option.map_some, Option.bind_eq_bind, Option.bind_some]
    rw [ih hle (getLast?_take_succ h n) hdrop]
  | case6 before i start c rest hlt hq hn word hword n ih =>
    have hfound := List.find?_some hword
    have hstarts := starts_of_startsKeyword hfound
    have hne := (Interval.stopWords_word word (List.mem_of_find?_eq_some hword)).1
    have hpos := List.length_pos_iff.mpr hne
    have hn' : i + n + 1 = i + word.length := by
      have hdef : n = word.length - 1 := rfl
      omega
    have hle := starts_length hstarts
    have hlen := length_of_drop h
    rw [List.length_cons] at hle
    have hbehind : byteOffset text i + byteLength word = byteOffset text (i + n + 1) := by
      rw [hn', byteOffset_add_word (by rw [h]; exact hstarts)]
    rw [cutLoop_code h (hbound hlt) (Bool.eq_false_iff.mpr hq) hn, hbefore, h, hword]
    simp only [hbehind]
    rw [ih (by omega) (getLast?_take_succ h n) (drop_add_succ h n)]
  | case7 before i start c rest hlt hq hn hword ih =>
    have hstep : cutLoop text (byteOffset text limit) (byteOffset text start) (byteOffset text i) =
        cutLoop text (byteOffset text limit) (byteOffset text start) (byteOffset text (i + 1)) := by
      by_cases hw : Wide c
      · exact step_wide h hw fun j b hb hwb => cutLoop_wide hb hwb
      · rw [cutLoop_code h (hbound hlt) (Bool.eq_false_iff.mpr hq) hn, hbefore, h, hword,
          byteOffset_succ_of_not_wide h hw]
    rw [hstep, ih (lt_of_drop h) (getLast?_take_next h) (drop_succ h)]

end Cut

/-! ## The end of the base -/

/-- The comment from `start` on that ends at an offset. -/
def commentBefore (text : Text) (rs : List Span) (start stop : Nat) : Checked (Option Span) :=
  if 0 < stop then
    match regionAt rs (stop - 1) with
    | some r =>
      if start ≤ r.start then do
        let comment ← skipComment text r.start
        return if comment.isSome then some r else none
      else return none
    | none => return none
  else return none

theorem commentBefore_lt {rs : List Span} {start stop : Nat} {r : Span}
    (h : commentBefore text rs start stop = some (some r)) : r.start < stop := by
  unfold commentBefore at h
  split at h
  · split at h
    · next hr =>
      have hle := regionAt_le hr
      split at h
      · obtain ⟨comment, -, h⟩ := Option.bind_eq_some_iff.mp h
        split at h
        · cases h
          omega
        · cases h
      · cases h
    · cases h
  · cases h

/-- What a region of a text starts with. -/
theorem drop_region (hi : i < text.length) {r : Region} (hr : regionAt? (regions text) i = some r) :
    ∃ c rest n, text.drop r.start = c :: rest ∧ regionTail? c rest = some (r.kind, n) := by
  obtain ⟨ms, p, ns, hp, h₁, h₂⟩ := exists_piece hi
  rw [Interval.regionAt?_piece hp h₁ h₂] at hr
  cases p with
  | code c => cases hr
  | region kind t =>
    obtain rfl := Option.some.inj hr
    have hpieces : pieces (textOf (.region kind t :: ns)) = .region kind t :: ns := pieces_textOf hp
    have hdrop : text.drop (textOf ms).length = textOf (.region kind t :: ns) := by
      rw [← textOf_pieces text, hp, textOf_append, List.drop_left]
    show ∃ c rest n, text.drop (textOf ms).length = c :: rest ∧ regionTail? c rest = some (kind, n)
    rw [hdrop]
    generalize textOf (.region kind t :: ns) = front at hpieces
    cases front with
    | nil => simp at hpieces
    | cons c rest =>
      refine ⟨c, rest, ?_⟩
      cases hr : regionTail? c rest with
      | none =>
        rw [pieces_code hr] at hpieces
        cases hpieces
      | some tail =>
        obtain ⟨kind', n⟩ := tail
        rw [pieces_region hr] at hpieces
        cases hpieces
        exact ⟨n, rfl, rfl⟩

/-- A region is a comment if a comment starts where it does. -/
theorem skipComment_region (hi : i < text.length) {r : Region} (hr : regionAt? (regions text) i = some r) :
    ∃ comment, skipComment text (byteOffset text r.start) = some comment ∧
      (comment.isSome = true ↔ r.kind = .comment) := by
  obtain ⟨c, rest, n, h, hregion⟩ := drop_region hi hr
  refine ⟨_, skipComment_eq h, ?_⟩
  rw [Option.isSome_map]
  rcases regionTail?_cases hregion with ⟨hkind, hl⟩ | ⟨hkind, hc⟩
  · have hq := (literalTail?_eq_some_iff.mp hl).1
    cases hc : commentTail? c rest with
    | none => simp [hkind]
    | some m =>
      rw [isQuote_of_commentTail? hc] at hq
      cases hq
  · rw [hc, hkind]
    simp

section Trim

variable {start stop : Nat}

theorem length_trimEnd_slice (hs : start ≤ stop) (hstop : stop ≤ text.length) :
    start + (Text.trimEnd (Text.slice text start stop)).length ≤ stop := by
  obtain ⟨spaces, h⟩ := Text.trimEnd_prefix (Text.slice text start stop)
  have hlen := congrArg List.length h
  rw [List.length_append, Text.slice, List.length_drop, List.length_take] at hlen
  simp only [Text.slice]
  omega

theorem byteOffset_trimEnd (hs : start ≤ stop) (hstop : stop ≤ text.length) :
    byteOffset text start + byteLength (Text.trimEnd (Text.slice text start stop)) =
      byteOffset text (start + (Text.trimEnd (Text.slice text start stop)).length) := by
  obtain ⟨spaces, h⟩ := Text.trimEnd_prefix (Text.slice text start stop)
  have hdrop : (text.drop start).take (stop - start) = Text.slice text start stop := by
    rw [Text.slice, List.drop_take]
  have hle := length_trimEnd_slice hs hstop
  rw [byteOffset_add]
  congr 2
  generalize Text.trimEnd (Text.slice text start stop) = t at h hle ⊢
  have htake : (text.drop start).take t.length = (Text.slice text start stop).take t.length := by
    rw [← hdrop, List.take_take, Nat.min_eq_left (by omega)]
  rw [htake, ← h, List.take_left]

/-- What a slice is trimmed to does not end behind it. -/
theorem trimEnd_slice_le {part : Text} (h : slice text start stop = some part) :
    start + byteLength (Text.trimEnd part) ≤ stop := by
  obtain ⟨i, hi, h⟩ := Option.bind_eq_some_iff.mp h
  obtain ⟨j, hj, h⟩ := Option.bind_eq_some_iff.mp h
  obtain ⟨hij, h⟩ := Option.ite_none_right_eq_some.mp h
  cases h
  obtain ⟨rfl, -⟩ := byteOffset_position? hi
  obtain ⟨rfl, hle⟩ := byteOffset_position? hj
  rw [byteOffset_trimEnd hij hle]
  exact byteOffset_mono (length_trimEnd_slice hij hle)

/-- The end of the slice between two offsets without the spaces and comments at its end. -/
def trimTriviaEnd (text : Text) (rs : List Span) (start stop : Nat) : Checked Nat :=
  match _p : slice text start stop with
  | none => none
  | some part =>
    let trimmed := start + byteLength (Text.trimEnd part)
    match _c : commentBefore text rs start trimmed with
    | some (some r) => trimTriviaEnd text rs start r.start
    | some none => return trimmed
    | none => none
termination_by stop
decreasing_by exact Nat.lt_of_lt_of_le (commentBefore_lt _c) (trimEnd_slice_le _p)

theorem trimTriviaEnd_of_slice {rs : List Span} {part : Text} (h : slice text start stop = some part) :
    trimTriviaEnd text rs start stop = (do
      let trimmed := start + byteLength (Text.trimEnd part)
      match ← commentBefore text rs start trimmed with
      | some r => trimTriviaEnd text rs start r.start
      | none => return trimmed) := by
  rw [trimTriviaEnd, h]
  simp only
  rcases commentBefore text rs start (start + byteLength (Text.trimEnd part)) with _ | _ | r <;> rfl

/-- The last comment of a slice. -/
theorem commentBefore_eq (hs : start ≤ stop) (hstop : stop ≤ text.length) :
    commentBefore text (spans text) (byteOffset text start) (byteOffset text stop) =
      some ((if 0 < stop then (regionAt? (regions text) (stop - 1)).filter
        (fun r => r.kind = .comment && start ≤ r.start) else none).map (span text)) := by
  cases stop with
  | zero =>
    rw [commentBefore, byteOffset_zero]
    rfl
  | succ k =>
    obtain ⟨hpos, hregion⟩ := step_left (List.drop_eq_getElem_cons hstop)
    rw [commentBefore, if_pos hpos, if_pos (Nat.succ_pos k), hregion, Nat.add_sub_cancel]
    cases hr : regionAt? (regions text) k with
    | none => rfl
    | some r =>
      obtain ⟨comment, hcomment, hkind⟩ := skipComment_region hstop hr
      have hle : byteOffset text start ≤ byteOffset text r.start ↔ start ≤ r.start := by
        rw [← Nat.not_lt, byteOffset_lt_iff (Nat.le_trans hs hstop), Nat.not_lt]
      have hstart : (span text r).start = byteOffset text r.start := rfl
      simp only [Option.map_some, hstart, hle]
      by_cases hs : start ≤ r.start
      · rw [if_pos hs, hcomment, Option.filter_some]
        cases comment <;> simp_all
      · rw [if_neg hs, Option.filter_some, if_neg (by simp [hs])]
        rfl

/-- The end of a slice without the spaces and comments at its end. -/
theorem trimTriviaEnd_eq (hs : start ≤ stop) (hstop : stop ≤ text.length) :
    trimTriviaEnd text (spans text) (byteOffset text start) (byteOffset text stop) =
      some (byteOffset text (Interval.trimTriviaEnd text (regions text) start stop)) := by
  have hstep : ∀ {stop : Nat}, start ≤ stop → stop ≤ text.length →
      trimTriviaEnd text (spans text) (byteOffset text start) (byteOffset text stop) = (do
        let trimmed := start + (Text.trimEnd (Text.slice text start stop)).length
        match (if 0 < trimmed then (regionAt? (regions text) (trimmed - 1)).filter
            (fun r => r.kind = .comment && start ≤ r.start) else none).map (span text) with
        | some r => trimTriviaEnd text (spans text) (byteOffset text start) r.start
        | none => return byteOffset text trimmed) := fun {stop} hs hstop => by
    have hle := length_trimEnd_slice hs hstop
    rw [trimTriviaEnd_of_slice (slice_byteOffset hs hstop)]
    simp only [Option.bind_eq_bind, Option.bind_some, byteOffset_trimEnd hs hstop,
      commentBefore_eq (Nat.le_add_right ..) (Nat.le_trans hle hstop)]
  fun_induction Interval.trimTriviaEnd text (regions text) start stop with
  | case1 stop trimmed hr =>
    rw [hstep hs hstop]
    simp only [trimmed] at hr
    simp only [hr, ite_self]
    rfl
  | case2 stop trimmed r hr hlt ih =>
    obtain ⟨hat, hfilter⟩ := Option.filter_eq_some_iff.mp hr
    have hcover := regionAt?_covers hat
    simp only [Bool.and_eq_true, decide_eq_true_eq] at hfilter
    rw [hstep hs hstop]
    simp only [trimmed] at hr hcover
    by_cases hpos : 0 < start + (Text.trimEnd (Text.slice text start stop)).length
    · simp only [if_pos hpos, hr]
      exact ih hfilter.2 (by omega)
    · -- nothing is left in front of the comment
      have hle := Interval.trimTriviaEnd_le text (regions text) start r.start
      have hlen := length_trimEnd_slice hfilter.2 (by omega : r.start ≤ text.length)
      simp only [if_neg hpos]
      show some _ = some _
      congr 2
      omega
  | case3 stop trimmed r hr hlt =>
    obtain ⟨hat, -⟩ := Option.filter_eq_some_iff.mp hr
    have hcover := regionAt?_covers hat
    have hle := length_trimEnd_slice hs hstop
    rw [hstep hs hstop]
    simp only [trimmed] at hcover
    simp only [if_neg (by omega : ¬ 0 < start + (Text.trimEnd (Text.slice text start stop)).length)]
    rfl

theorem le_trimTriviaEnd (text : Text) (rs : List Region) (start stop : Nat) :
    start ≤ Interval.trimTriviaEnd text rs start stop := by
  fun_induction Interval.trimTriviaEnd text rs start stop with
  | case1 | case3 => exact Nat.le_add_right ..
  | case2 _ _ _ _ _ ih => exact ih

end Trim

/-! ## The whole base -/

/-- The base in front of the sign at an offset, for an interval whose keyword stops at another offset. -/
def readBase (text : Text) (signAt stop : Nat) : Checked (Except StageError Interval.Base) := do
  let rs ← opaqueRegions text 0
  match ← baseBoundary text rs signAt signAt with
  | .error e => return .error e
  | .ok boundary =>
    let cut ← cutLoop text signAt boundary.start boundary.start
    let start := min (← skipTrivia text cut) signAt
    let base ← slice text start (← trimTriviaEnd text rs start signAt)
    if base.isEmpty then return .error ⟨.baseMissing, ← snippet text signAt stop⟩
    else
      match boundary with
      | .group opener => return .ok ⟨base, start, some opener⟩
      | .plain _ => return .ok ⟨base, start, none⟩

/-- A base with the offsets of its positions. -/
def baseOffset (text : Text) (base : Interval.Base) : Interval.Base :=
  ⟨base.text, byteOffset text base.start, base.group.map (byteOffset text)⟩

theorem byteOffset_min (text : Text) (i j : Nat) :
    byteOffset text (min i j) = min (byteOffset text i) (byteOffset text j) := by
  rcases Nat.le_total i j with h | h
  · rw [Nat.min_eq_left h, Nat.min_eq_left (byteOffset_mono h)]
  · rw [Nat.min_eq_right h, Nat.min_eq_right (byteOffset_mono h)]

/-- A boundary stands behind a character of ASCII, within the text. -/
theorem boundaryOffset_start {b : Boundary} (hi : i ≤ text.length)
    (h : Interval.boundaryBefore (marksBefore text i) = .ok b) :
    (boundaryOffset text b).start = byteOffset text b.start ∧ b.start ≤ i := by
  rcases Interval.boundaryBefore_split h with rfl | ⟨xs, c, ys, hsplit, hstart, hc, -⟩
  · exact ⟨rfl, Nat.zero_le i⟩
  · have hlen := congrArg List.length hsplit
    rw [length_marksBefore hi, List.length_append, List.length_cons] at hlen
    have hle : b.start ≤ i := by omega
    refine ⟨?_, hle⟩
    cases b with
    | plain start => rfl
    | group opener =>
      -- the bracket is the mark at the split
      simp only [Boundary.start] at hstart hle ⊢
      have hmarks : marksBefore text (opener + 1) = ⟨c, true⟩ :: xs := by
        rw [← drop_marksBefore hi hle, hsplit, List.drop_left' (by omega)]
      have hdrop := List.drop_eq_getElem_cons (Nat.lt_of_lt_of_le hle hi)
      rw [marksBefore_succ hdrop] at hmarks
      have hchar : text[opener] = c := congrArg Mark.char (List.cons.inj hmarks).1
      have hw : ¬ Wide text[opener] := by
        rw [hchar]
        exact not_wide_of_isWord hc
      exact (byteOffset_succ_of_not_wide hdrop hw).symm

/-- The base in front of a sign. -/
theorem readBase_eq {signAt stop : Nat} {s : Char} (hs : text.drop signAt = s :: rest) (hw : ¬ Wide s)
    (hsign : signAt ≤ stop) (hstop : stop ≤ text.length) :
    readBase text (byteOffset text signAt) (byteOffset text stop) =
      some ((Interval.readBase text signAt stop).map (baseOffset text)) := by
  have hlt := lt_of_drop hs
  rw [readBase, Interval.readBase]
  simp only [opaqueRegions_eq, Option.bind_eq_bind, Option.bind_some, baseBoundary_eq hs hw (Nat.le_refl _)]
  cases hb : Interval.boundaryBefore (marksBefore text signAt) with
  | error i => rfl
  | ok b =>
    obtain ⟨hstart, hle⟩ := boundaryOffset_start (Nat.le_of_lt hlt) hb
    generalize hcut : Interval.stopWordCut signAt (text.take b.start).getLast? b.start b.start (text.drop b.start) = cut
    have hstart' : Interval.baseStart text b.start signAt ≤ signAt := Nat.min_le_right ..
    have htrim := trimTriviaEnd_eq hstart' (Nat.le_of_lt hlt)
    have hlow := le_trimTriviaEnd text (regions text) (Interval.baseStart text b.start signAt) signAt
    have hhigh := Interval.trimTriviaEnd_le text (regions text) (Interval.baseStart text b.start signAt) signAt
    have hstop' : Interval.trimTriviaEnd text (regions text) (Interval.baseStart text b.start signAt) signAt ≤
        text.length := by
      have hlen := length_trimEnd_slice hstart' (Nat.le_of_lt hlt)
      omega
    have hbase : min (byteOffset text (cut + Interval.triviaLength (text.drop cut))) (byteOffset text signAt) =
        byteOffset text (Interval.baseStart text b.start signAt) := by
      rw [← byteOffset_min, ← hcut]
      rfl
    simp only [boundaryResult, hstart, cutLoop_eq (Nat.le_of_lt hlt) (Nat.le_trans hle (Nat.le_of_lt hlt)), hcut,
      Option.bind_some, skipTrivia_eq, hbase, htrim, slice_byteOffset hlow hstop', snippet_eq hsign hstop]
    split
    · rfl
    · cases b <;> rfl

end SqlDialect.Bytes
