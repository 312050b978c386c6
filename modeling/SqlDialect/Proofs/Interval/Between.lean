import Mathlib.Data.List.Find
import SqlDialect.Proofs.Qualifier
import SqlDialect.Proofs.Interval.Local

/-!
# An expression between commas

An interval expression of a well-formed text is located there as it is where more text stands in front of a comma on
the left and behind a comma on the right. No search for the base goes beyond the comma on the left, and no search for
the terms or the end of a group goes beyond the one on the right.

* `Between`: a well-formed text as an item of a list.
* `readSign_between`, `readBase_between`, `groupEnd?_between`: what one search finds is found in the list too.
* `locate_between`: the same expressions are located.
-/

namespace SqlDialect.Interval

/-! ## Items -/

theorem wellFormed_comma {t : Text} (h : WellFormed t) : WellFormed (',' :: t) := by
  refine WellFormed.of_pieces (pieces_comma t) (fun u hu => ?_) h.nest
  rcases List.mem_cons.mp hu with he | hu
  · cases he
  · exact h.comment u hu

/-- The well-formed text `X` stands behind `L` and in front of `R`. Each of these is a well-formed text with a comma on
the side of `X`, or nothing. -/
structure Between (L X R : Text) : Prop where
  item : WellFormed X
  left : L = [] ∨ ∃ a, L = a ++ [','] ∧ WellFormed a
  right : R = [] ∨ ∃ b, R = ',' :: b ∧ WellFormed b

namespace Between

variable {L X R : Text}

theorem ends (h : Between L X R) : EndsItem R := by
  rcases h.right with rfl | ⟨b, rfl, -⟩
  · exact Or.inl rfl
  · exact Or.inr rfl

theorem reads (h : Between L X R) : Reads X R (pieces X) := by
  rcases h.right with rfl | ⟨b, rfl, -⟩
  · rw [Reads, List.append_nil, pieces_nil, List.append_nil]
  · exact h.item.reads (apart_comma X b)

theorem tail (h : Between L X R) : Tail X R := ⟨h.reads, h.item.comment, [], h.item.nest⟩

/-- The pieces in front of the item. -/
theorem exists_left (h : Between L X R) : ∃ ls, textOf ls = L ∧ (∀ t, pieces (L ++ t) = ls ++ pieces t) ∧
    (∀ t, .region .comment t ∉ ls) ∧ (marksBack ls = [] ∨ (marksBack ls).head? = some ⟨',', true⟩) := by
  rcases h.left with rfl | ⟨a, rfl, ha⟩
  · exact ⟨[], rfl, fun t => rfl, by simp, Or.inl rfl⟩
  · refine ⟨pieces a ++ [.code ','], by simp [Piece.text], fun t => ?_, fun t ht => ?_, Or.inr ?_⟩
    · have hread := ha.reads (apart_comma a t)
      rw [List.append_assoc, List.singleton_append, hread, pieces_comma, List.append_assoc, List.singleton_append]
    · rcases List.mem_append.mp ht with ht | ht
      · exact ha.comment t ht
      · cases List.mem_singleton.mp ht
    · rw [marksBack_append, marksBack_code]
      rfl

/-- No comment stands in the list. -/
theorem comment (h : Between L X R) : ∀ t, .region .comment t ∉ pieces (L ++ (X ++ R)) := by
  obtain ⟨ls, -, hls, hc, -⟩ := h.exists_left
  intro t ht
  rw [hls, h.reads] at ht
  simp only [List.mem_append] at ht
  rcases ht with ht | ht | ht
  · exact hc t ht
  · exact h.item.comment t ht
  · rcases h.right with rfl | ⟨b, rfl, hb⟩
    · rw [pieces_nil] at ht
      cases ht
    · exact (wellFormed_comma hb).comment t ht

/-- What stands in front of a place in the item ends no word unless something of the item does. -/
theorem before (h : Between L X R) (a : Text) : (L ++ a).getLast?.any isWord = a.getLast?.any isWord := by
  cases ha : a.getLast? with
  | some c => rw [List.getLast?_append, ha, Option.some_or]
  | none =>
    obtain rfl := List.getLast?_eq_none_iff.mp ha
    rw [List.append_nil]
    rcases h.left with rfl | ⟨m, rfl, -⟩
    · rfl
    · rw [List.getLast?_concat]
      rfl

end Between

section Locate

variable {L X R : Text}

theorem drop_between {i : Nat} (hi : i ≤ X.length) : (L ++ (X ++ R)).drop (L.length + i) = X.drop i ++ R := by
  rw [← List.drop_drop, List.drop_left, List.drop_append_of_le_length hi]

theorem take_between {i : Nat} (hi : i ≤ X.length) : (L ++ (X ++ R)).take (L.length + i) = L ++ X.take i := by
  rw [List.take_length_add_append, List.take_append_of_le_length hi]

theorem slice_between {i j : Nat} (hj : j ≤ X.length) :
    Text.slice (L ++ (X ++ R)) (L.length + i) (L.length + j) = Text.slice X i j := by
  rw [Text.slice, Text.slice, take_between hj, ← List.drop_drop, List.drop_left]

/-! ## The sign -/

/-- The sign before a keyword is the one in the item. -/
theorem readSign_between (h : Between L X R) {kw : Nat} (hkw : kw ≤ X.length) :
    (readSign (L ++ (X ++ R)) (L.length + kw)).toOption =
      (readSign X kw).toOption.map fun (sign, signAt) => (sign, L.length + signAt) := by
  rw [readSign, readSign, take_between hkw, List.reverse_append]
  cases hd : (X.take kw).reverse.dropWhile isBlank with
  | nil =>
    have hall : ∀ c ∈ (X.take kw).reverse, isBlank c = true := fun c hc => by
      rw [← List.takeWhile_append_dropWhile (p := isBlank) (l := (X.take kw).reverse), hd, List.append_nil] at hc
      exact List.all_eq_true.mp List.all_takeWhile c hc
    rw [List.dropWhile_append_of_pos hall]
    rcases h.left with rfl | ⟨m, rfl, -⟩
    · rfl
    · rw [List.reverse_concat, List.dropWhile_cons_of_neg (by decide)]
      rfl
  | cons c before =>
    rw [List.dropWhile_append, hd]
    simp only [List.isEmpty_cons, Bool.false_eq_true, if_false, List.cons_append]
    cases Sign.ofChar? c with
    | none => rfl
    | some sign =>
      simp only [List.length_append, List.length_reverse]
      rw [Nat.add_comm before.length]
      rfl

/-! ## The base -/

/-- Which stop word starts at a character does not depend on what stands behind the item. -/
theorem find?_stopWords_append {before before' : Option Char} (hR : EndsItem R)
    (hb : before'.any isWord = before.any isWord) (c : Char) (rest : Text) :
    stopWords.find? (startsKeyword · before' (c :: (rest ++ R))) =
      stopWords.find? (startsKeyword · before (c :: rest)) := by
  refine List.find?_congr fun w hw => ?_
  have hbreak : WordBreak (c :: rest) R := wordBreak_of_head (hR.head rfl) _
  have happ := @startsKeyword_append w before' (stopWords_word w hw).2 _ _ (List.cons_ne_nil c rest) hbreak
  rw [← List.cons_append, happ]
  simp only [startsKeyword, hb]

/-- What the search for stop words passes over in an item does not depend on what stands around it. -/
theorem CutStep.append {before before' : Option Char} {c : Char} {rest r : Text} {cuts : Bool} {n : Nat}
    {qs ps : List Piece} (h : CutStep before c rest cuts n qs) (hle : n ≤ rest.length)
    (hp : pieces (c :: rest) = qs ++ ps ++ pieces r) (hp' : pieces (c :: rest ++ R) = qs ++ ps ++ pieces (r ++ R))
    (hne : qs ++ ps ≠ []) (hn : nest [] (qs ++ ps) = some []) (hc : ∀ t, .region .comment t ∉ qs ++ ps)
    (hR : EndsItem R) (hb : before'.any isWord = before.any isWord) : CutStep before' c (rest ++ R) cuts n qs := by
  have hcom' : commentTail? c (rest ++ R) = none := by
    obtain ⟨p, xs, hx⟩ := List.exists_cons_of_ne_nil hne
    rw [hx] at hp' hc
    exact commentTail?_of_code hp' (no_comment_iff.mp hc p List.mem_cons_self)
  cases h with
  | delimiter hdelim hoff =>
    -- the partner is found in front of the end of the item
    obtain ⟨m, hclosing⟩ := closing_of_balanced hne hn (Nat.le_refl _)
    have hd : isQuote c = true ∨ isOpener c = true := by simpa using hdelim
    obtain ⟨hm, -⟩ := hclosing c rest r hp hd
    obtain rfl : m = n := Option.some.inj (hm.symm.trans hoff)
    exact .delimiter hdelim (hclosing c (rest ++ R) (r ++ R) hp' hd).1
  | comment => exact absurd List.mem_cons_self (hc _)
  | @word w hdelim _ hw =>
    have htake : (rest ++ R).take (w.length - 1) = rest.take (w.length - 1) := List.take_append_of_le_length hle
    rw [← htake]
    exact .word hdelim hcom' (by rwa [find?_stopWords_append hR hb])
  | code hdelim _ hw => exact .code hdelim hcom' (by rwa [find?_stopWords_append hR hb])

/-- The stop words of an operand do not depend on what stands around the text. -/
theorem stopWordCut_shift {k limit i start : Nat} {before before' : Option Char} {rest r : Text} {xs : List Piece}
    (hp : pieces rest = xs ++ pieces r) (hp' : pieces (rest ++ R) = xs ++ pieces (r ++ R)) (hn : nest [] xs = some [])
    (hc : ∀ t, .region .comment t ∉ xs) (hl : limit = i + (textOf xs).length) (hr : r.head?.any isWord = false)
    (hR : EndsItem R) (hb : before'.any isWord = before.any isWord) :
    stopWordCut (k + limit) before' (k + i) (k + start) (rest ++ R) = k + stopWordCut limit before i start rest := by
  induction hm : rest.length using Nat.strongRecOn generalizing before before' i start rest xs with
  | ind m ih =>
    subst hm
    by_cases hne : xs = []
    · rw [hne, textOf_nil, List.length_nil, Nat.add_zero] at hl
      rw [stopWordCut_of_le (Nat.le_of_eq (by rw [hl])), stopWordCut_of_le (Nat.le_of_eq hl)]
    cases rest with
    | nil => exact absurd (List.append_eq_nil_iff.mp (hp.symm.trans pieces_nil)).1 hne
    | cons c rest =>
      obtain ⟨cuts, n, qs, ps, hstep, rfl, htext, hle, hbal, hrest⟩ := exists_cutStep before hp hne hn hr
      have hstep' := hstep.append hle hp hp' hne hn hc hR hb
      have hlen : (textOf qs).length = n + 1 := by rw [htext, List.length_cons, List.length_take_of_le hle]
      have hrest' := pieces_drop (hp'.trans (List.append_assoc ..))
      rw [hlen, List.cons_append, List.drop_succ_cons, List.drop_append_of_le_length hle] at hrest'
      rw [textOf_append, List.length_append, hlen] at hl
      have hshort : (rest.drop n).length < (c :: rest).length := by
        rw [List.length_drop, List.length_cons]
        omega
      have := @ih _ hshort (i + n + 1) (if cuts then i + n + 1 else start) (c :: rest.take n).getLast?
        (c :: rest.take n).getLast? _ ps hrest hrest' (nest_rest hn hbal)
        (fun t ht => hc t (List.mem_append_right _ ht)) (by omega) rfl rfl
      have hk : k + i + n + 1 = k + (i + n + 1) := by omega
      rw [List.cons_append, hstep'.stopWordCut_eq (by omega), hstep.stopWordCut_eq (by omega),
        List.take_append_of_le_length hle, List.drop_append_of_le_length hle, hk, ← this]
      cases cuts <;> rfl

/-- In a text without comments only the spaces at the end of a base are dropped. -/
theorem trimTriviaEnd_of_no_comment {T : Text} (hc : ∀ t, .region .comment t ∉ pieces T) (start stop : Nat) :
    trimTriviaEnd T (regions T) start stop = start + (Text.trimEnd (Text.slice T start stop)).length := by
  rw [trimTriviaEnd]
  split
  · rfl
  · next r hr =>
    obtain ⟨hat, hcomment⟩ := Option.filter_eq_some_iff.mp hr
    simp only [Bool.and_eq_true, decide_eq_true_eq] at hcomment
    obtain ⟨ms, t, ns, hp, -⟩ := mem_regionsFrom.mp (List.mem_of_find?_eq_some hat)
    rw [hcomment.1] at hp
    exact absurd (by rw [hp]; simp) (hc t)

/-- Where the sign stands in a well-formed text. -/
theorem sign_pieces {X : Text} {kw signAt : Nat} {sign : Sign} {FS : List Piece} {b : Option Char} (hX : WellFormed X)
    (hp : pieces X = FS ++ pieces (X.drop kw)) (hl : (textOf FS).length = kw)
    (hk : startsKeyword keyword b (X.drop kw) = true) (h : readSign X kw = .ok (sign, signAt)) :
    ∃ (FJ : List Piece) (blanks : Text), FS = FJ ++ .code sign.char :: blanks.map .code ∧
      (textOf FJ).length = signAt := by
  obtain ⟨-, FJ, M, rfl, -, -, -, hat⟩ := readSign_pieces hp hl h
  rw [List.append_assoc] at hp
  rcases hat with hat | ⟨t, M, rfl, -⟩
  · obtain ⟨blanks, -, rfl⟩ := pieces_of_sign hp hat hk h
    exact ⟨FJ, blanks, rfl, hat⟩
  · exact absurd (by rw [hp]; simp) (hX.comment t)

theorem Boundary.shift_start (k : Nat) (b : Boundary) : (b.shift k).start = k + b.start := by
  cases b <;> simp [Boundary.shift, Boundary.start, Nat.add_assoc]

/-- The operand in front of a place of the item, and its boundary alone and in the list. -/
theorem boundary_between (h : Between L X R) {FJ qs : List Piece} (hp : pieces X = FJ ++ qs) :
    ∃ (as xs : List Piece) (bound : Boundary), FJ = as ++ xs ∧ Operand xs ∧ bound.start = (textOf as).length ∧
      boundaryBefore (marksBefore X (textOf FJ).length) = .ok bound ∧
      boundaryBefore (marksBefore (L ++ (X ++ R)) (L.length + (textOf FJ).length)) = .ok (bound.shift L.length) := by
  obtain ⟨as, xs, bound, hFJ, hxs, hstart, hbound⟩ := operand_split h.item hp
  refine ⟨as, xs, bound, hFJ, hxs, hstart, ?_, ?_⟩
  · have halone := hbound [] (Or.inl rfl)
    rwa [List.append_nil, List.length_nil, Boundary.shift_zero, ← marksBefore_pieces hp] at halone
  · obtain ⟨ls, hL, hls, -, hmarks⟩ := h.exists_left
    have hall : pieces (L ++ (X ++ R)) = (ls ++ FJ) ++ (qs ++ pieces R) := by rw [hls, h.reads, hp]; simp
    have hlist := hbound (marksBack ls) hmarks
    rwa [← marksBack_append, ← marksBefore_pieces hall, textOf_append, List.length_append, length_marksBack,
      hL] at hlist

/-- The base starts at the same place of the item. -/
theorem baseStart_between (h : Between L X R) {as xs qs : List Piece} (hp : pieces X = (as ++ xs) ++ qs)
    (hxs : Operand xs) (hqs : (textOf qs).head?.any isWord = false) :
    baseStart (L ++ (X ++ R)) (L.length + (textOf as).length) (L.length + (textOf (as ++ xs)).length) =
      L.length + baseStart X (textOf as).length (textOf (as ++ xs)).length := by
  have hp' : pieces X = as ++ (xs ++ qs) := by rw [hp, List.append_assoc]
  have hlen : (textOf (as ++ xs)).length = (textOf as).length + (textOf xs).length := by
    rw [textOf_append, List.length_append]
  have hXlen : X.length = (textOf (as ++ xs)).length + (textOf qs).length := by
    conv => lhs; rw [← textOf_pieces X, hp, textOf_append, List.length_append]
  have hqsX : X.drop (textOf (as ++ xs)).length = textOf qs := by
    rw [← textOf_pieces (X.drop _), pieces_drop hp]
  have hfrom : pieces (X.drop (textOf as).length) = xs ++ pieces (textOf qs) := by
    rw [pieces_drop hp', pieces_textOf hp]
  have hfrom' : pieces (X.drop (textOf as).length ++ R) = xs ++ pieces (textOf qs ++ R) := by
    rw [(h.tail.drop (by rw [pieces_drop hp']; exact hp')).pieces_append, hfrom,
      ← hqsX, (h.tail.drop (by rw [pieces_drop hp]; exact hp)).pieces_append, List.append_assoc]
  have hcomment : ∀ t, .region .comment t ∉ xs := fun t ht => h.item.comment t (by rw [hp']; simp [ht])
  have hcut := @stopWordCut_shift R L.length (textOf (as ++ xs)).length (textOf as).length (textOf as).length
    (X.take (textOf as).length).getLast? (L ++ X.take (textOf as).length).getLast? _ _ _ hfrom hfrom' hxs.nest hcomment
    hlen hqs h.ends (h.before _)
  obtain ⟨ys, zs, hlast, hat⟩ := stopWordCut_operand hp' hxs (Or.inl rfl) hqs
  obtain rfl := hlast.split
  have hcutX : pieces X = (as ++ ys) ++ (zs ++ qs) := by rw [hp]; simp
  have htail : Tail (X.drop (textOf (as ++ ys)).length) R := h.tail.drop (by rw [pieces_drop hcutX]; exact hcutX)
  have hle : (textOf (as ++ ys)).length ≤ X.length := by
    conv => rhs; rw [← textOf_pieces X, hcutX, textOf_append, List.length_append]
    omega
  rw [baseStart, baseStart, take_between (by omega), drop_between (by omega), hcut, hat, drop_between hle,
    triviaLength_append htail h.ends]
  omega

/-- The base in the item is the one in the list. -/
theorem readBase_between (h : Between L X R) {FJ qs : List Piece} (hp : pieces X = FJ ++ qs)
    (hqs : (textOf qs).head?.any isWord = false) (stop stop' : Nat) :
    (readBase (L ++ (X ++ R)) (L.length + (textOf FJ).length) stop').toOption =
      (readBase X (textOf FJ).length stop).toOption.map fun base =>
        ⟨base.text, L.length + base.start, base.group.map (L.length + ·)⟩ := by
  obtain ⟨as, xs, bound, rfl, hxs, hstart, halone, hlist⟩ := boundary_between h hp
  have hle : (textOf (as ++ xs)).length ≤ X.length := by
    conv => rhs; rw [← textOf_pieces X, hp, textOf_append, List.length_append]
    omega
  have hmin : baseStart X (textOf as).length (textOf (as ++ xs)).length ≤ (textOf (as ++ xs)).length :=
    Nat.min_le_right _ _
  rw [readBase, readBase, halone, hlist]
  simp only [Boundary.shift_start, hstart, baseStart_between h hp hxs hqs, trimTriviaEnd_of_no_comment h.comment,
    trimTriviaEnd_of_no_comment h.item.comment, slice_between hle, Nat.add_assoc]
  generalize baseStart X (textOf as).length (textOf (as ++ xs)).length = start at hmin ⊢
  have htrim : start + (Text.trimEnd (Text.slice X start (textOf (as ++ xs)).length)).length ≤ X.length := by
    obtain ⟨s, hs⟩ := Text.trimEnd_prefix (Text.slice X start (textOf (as ++ xs)).length)
    have hlen := congrArg List.length hs
    rw [List.length_append, Text.slice, List.length_drop, List.length_take] at hlen
    rw [Text.slice]
    omega
  rw [slice_between htrim]
  split
  · rfl
  · cases bound <;> rfl

/-! ## The end of a group -/

/-- A word does not reach over the comma in front of an item. -/
theorem opensList_between (h : Between L X R) (a : Text) : opensList (L ++ a) = opensList a := by
  have hlast : L.getLast?.all (fun c => !isSpace c) = true := by
    rcases h.left with rfl | ⟨m, rfl, -⟩
    · rfl
    · rw [List.getLast?_concat]
      rfl
  have hend : EndsItem L.reverse := by
    rcases h.left with rfl | ⟨m, rfl, -⟩
    · exact Or.inl rfl
    · exact Or.inr (by simp)
  have hword : lastWord (L ++ a) = lastWord a := by
    rw [lastWord, lastWord, trimEnd_append hlast, List.reverse_append,
      (takeWhile_append_end (hend.head rfl) (Text.trimEnd a).reverse).1]
  rw [opensList, opensList, hword]

/-- A group of the item ends at the same place of it. -/
theorem groupEnd?_between (h : Between L X R) {ms : List Piece} {c : Char} {opener : Nat}
    (hp : pieces X = ms ++ .code c :: pieces (X.drop (opener + 1))) (hl : (textOf ms).length = opener)
    {start stop : Nat} (hstop : stop ≤ X.length) :
    groupEnd? (L ++ (X ++ R)) (L.length + opener) (L.length + start) (L.length + stop) =
      (groupEnd? X opener start stop).map (L.length + ·) := by
  have hcut : pieces (X.drop opener) = .code c :: pieces (X.drop (opener + 1)) := by rw [← hl, pieces_drop hp, hl]
  have hdrop : X.drop opener = c :: X.drop (opener + 1) := by
    rw [← textOf_pieces (X.drop opener), hcut, textOf_cons, textOf_pieces]
    rfl
  have hle : opener + 1 ≤ X.length := by
    have hlen := congrArg List.length hdrop
    rw [List.length_drop, List.length_cons] at hlen
    omega
  have hopen : X[opener]? = some c := by rw [← List.head?_drop, hdrop, List.head?_cons]
  have hopen' : (L ++ (X ++ R))[L.length + opener]? = some c := by
    rw [← List.head?_drop, drop_between (by omega), hdrop, List.cons_append, List.head?_cons]
  have htail : Tail (X.drop opener) R := h.tail.drop (by rw [hcut, hp])
  have htail' : Tail (X.drop (opener + 1)) R := htail.drop (hcut : _ = [.code c] ++ _)
  have htrivia := triviaLength_append htail' h.ends
  have hblanks := (takeWhile_append_end (h.ends.head (p := isBlank) rfl) (X.drop stop)).1
  rw [groupEnd?, groupEnd?, hopen, hopen']
  by_cases hc : c = '('
  · subst hc
    rw [hdrop] at htail
    obtain ⟨n, halone, hlist, -⟩ := htail.closingOffset? rfl
    simp only [findClosing, drop_between (show opener ≤ X.length by omega), Nat.add_assoc L.length opener 1,
      drop_between hle, drop_between hstop, take_between (show opener ≤ X.length by omega), htrivia, hblanks,
      opensList_between h, hdrop, List.cons_append, hlist, halone, Option.map_some, Option.some.injEq, true_and]
    have hcond : L.length + (opener + 1) + triviaLength (X.drop (opener + 1)) = L.length + start ∧
        L.length + opener + n = L.length + stop + ((X.drop stop).takeWhile isBlank).length ∧
          (!opensList (X.take opener)) = true ↔
        opener + 1 + triviaLength (X.drop (opener + 1)) = start ∧
          opener + n = stop + ((X.drop stop).takeWhile isBlank).length ∧ (!opensList (X.take opener)) = true := by
      constructor
      · rintro ⟨h1, h2, h3⟩
        exact ⟨by omega, by omega, h3⟩
      · rintro ⟨h1, h2, h3⟩
        exact ⟨by omega, by omega, h3⟩
    simp only [hcond]
    split
    · rw [Option.map_some, Nat.add_assoc]
    · rfl
  · have hne : ¬ some c = some '(' := by simpa using hc
    simp only [hne, false_and, if_false, Option.map_none]

/-! ## The whole expression -/

/-- **An expression between commas.** In a list the same expressions are located as in the item alone. -/
theorem locate_between (h : Between L X R) {kw : Nat} {FS : List Piece} {b : Option Char}
    (hp : pieces X = FS ++ pieces (X.drop kw)) (hl : (textOf FS).length = kw)
    (hk : startsKeyword keyword b (X.drop kw) = true) :
    (locate (L ++ (X ++ R)) (L.length + kw)).toOption =
      (locate X kw).toOption.map fun e => ⟨e.base, e.terms, L.length + e.start, L.length + e.stop⟩ := by
  have hkw : kw ≤ X.length := by
    rw [← hl]
    conv => rhs; rw [← textOf_pieces X, hp, textOf_append, List.length_append]
    omega
  have hsigns := readSign_between h hkw
  rw [locate, locate]
  cases hs : readSign X kw with
  | error e =>
    obtain ⟨e', he'⟩ := eq_error_of_toOption (hsigns.trans (by rw [hs]; rfl))
    rw [he']
    rfl
  | ok x =>
    obtain ⟨sign, signAt⟩ := x
    rw [eq_ok_of_toOption (hsigns.trans (by rw [hs]; rfl))]
    have hsplit := fun base => @readBase_split X kw signAt (kw + keyword.length) sign base FS hp hl hs
    obtain ⟨FJ, blanks, rfl, rfl⟩ := sign_pieces h.item hp hl hk hs
    rw [List.append_assoc] at hp
    have hsign : (textOf (.code sign.char :: blanks.map .code ++ pieces (X.drop kw))).head?.any isWord = false := by
      cases sign <;> rfl
    have hbases := readBase_between h hp hsign (kw + keyword.length) (L.length + kw + keyword.length)
    simp only
    cases hb : readBase X (textOf FJ).length (kw + keyword.length) with
    | error e =>
      obtain ⟨e', he'⟩ := eq_error_of_toOption (hbases.trans (by rw [hb]; rfl))
      rw [he']
      rfl
    | ok base =>
      rw [eq_ok_of_toOption (hbases.trans (by rw [hb]; rfl))]
      have htail : Tail (X.drop kw) R := h.tail.drop ((hp.trans (List.append_assoc ..).symm))
      have hterms := readTerms_append htail h.ends hk sign
      rw [drop_between hkw]
      simp only
      cases ht : readTerms sign (X.drop kw) with
      | error e =>
        obtain ⟨e', he'⟩ := eq_error_of_toOption (hterms.trans (by rw [ht]; rfl))
        rw [he']
        rfl
      | ok x =>
        obtain ⟨ts, n⟩ := x
        rw [eq_ok_of_toOption (hterms.trans (by rw [ht]; rfl))]
        obtain ⟨qs, hq, hqlen, -, -⟩ := readTerms_pieces hk ht
        have hstop : kw + n ≤ X.length := by
          have hlen := congrArg (List.length ∘ textOf) hq
          simp only [Function.comp_apply, textOf_pieces, textOf_append, List.length_append, List.length_drop] at hlen
          omega
        obtain ⟨FA, Fb, D, M, -, -, -, hpieces⟩ := hsplit base hb
        simp only [Nat.add_assoc]
        cases hg : base.group with
        | none => rfl
        | some opener =>
          obtain ⟨ms, c, hms, hmlen⟩ := hpieces.group opener hg
          simp only [Option.map_some, Option.bind_some, groupEnd?_between h hms hmlen hstop]
          cases groupEnd? X opener base.start (kw + n) with
          | none => rfl
          | some close => rfl

end Locate

end SqlDialect.Interval
