import SqlDialect.Proofs.BottomUp
import SqlDialect.Proofs.WellFormed

/-!
# Texts without comments

In a text without comments no argument leaves a comment open, so the conversion of such a text is the translation from
the inside out, and it is refused exactly if a call is not well-formed. A name that is no call before the conversion
may become one by it: the spaces that trimming takes away from an argument may be word characters. Without such spaces
no name of the function is left.

* `TimeDifference.convert_of_no_comment`: the conversion of a text without comments.
-/

namespace SqlDialect.TimeDifference

/-! ## Arguments without comments -/

/-- The parts of balanced pieces, each in front of something. -/
theorem reads_of_mem_split {a part : Text} {ps : List Piece} {sep : Char} (h : Reads a [')'] ps)
    (hn : nest [] ps = some []) (hsep : sep ≠ '-') (hm : part ∈ splitTopLevel a sep) :
    ∃ r qs, r ≠ [] ∧ Reads part r qs ∧ ∀ p ∈ qs, p ∈ ps := by
  obtain ⟨q, qs, rfl, hs, -⟩ := splitTopLevel_of_reads h hn hsep
  rw [hs] at hm
  rcases List.mem_cons.mp hm with rfl | hm
  · exact ⟨_, q, by simp, h.take, fun p hp => List.mem_append_left _ hp⟩
  · obtain ⟨x, hx, rfl⟩ := List.mem_map.mp hm
    obtain ⟨xs, ys, rfl⟩ := List.append_of_mem hx
    have hp : q ++ (xs ++ x :: ys).flatMap (.code sep :: ·) =
        (q ++ xs.flatMap (.code sep :: ·) ++ [.code sep]) ++ (x ++ ys.flatMap (.code sep :: ·)) := by simp
    rw [hp] at h
    exact ⟨_, x, by simp, h.drop.take, fun p hp => by simp [hp]⟩

/-- An argument without comments, in front of what is written behind it. -/
theorem Placed.of_plain_argument {a r : Text} {qs : List Piece} (h : Reads a r qs) (hr : r ≠ [])
    (hn : nest [] qs = some []) (hc : ∀ t, .region .comment t ∉ qs) :
    ∃ (s₁ s₂ : Text) (ps : List Piece), (∀ c ∈ s₁, isSpace c = true) ∧ (∀ c ∈ s₂, isSpace c = true) ∧
      qs = s₁.map .code ++ (ps ++ s₂.map .code) ∧ a = s₁ ++ Text.trim a ++ s₂ ∧ nest [] ps = some [] ∧
      ∀ y, Placed (Text.trim a) (')' :: y) ps := by
  obtain ⟨s₁, s₂, ps, hs₁, hs₂, hps, rfl, ha⟩ := h.trim_of_no_comment hr hc
  have hnest : nest [] ps = some [] := by
    rw [nest_spaces hs₁, nest_append] at hn
    obtain ⟨s, hs, he⟩ := Option.bind_eq_some_iff.mp hn
    have hend := nest_spaces hs₂ s []
    rw [List.append_nil, he, nest_nil] at hend
    rw [hs, hend]
  exact ⟨s₁, s₂, ps, hs₁, hs₂, rfl, ha, hnest, fun y => ⟨reads_parenthesis hps hnest, fun _ => ⟨hps, ⟨[], hnest⟩, rfl⟩⟩⟩

/-- What stands between the parentheses of a call with three arguments: the unit, and two timestamps with spaces around
them. -/
theorem placed_arguments {a unit first last : Text} {q : List Piece} (h : Reads a [')'] q) (hn : nest [] q = some [])
    (hc : ∀ t, .region .comment t ∉ q) (hs : splitTopLevel a ',' = [unit, first, last]) :
    ∃ (u fs ls : List Piece) (f₁ f₂ l₁ l₂ : Text), q = u ++ .code ',' :: ((f₁.map .code ++ (fs ++ f₂.map .code)) ++
        .code ',' :: (l₁.map .code ++ (ls ++ l₂.map .code))) ∧ textOf u = unit ∧
      (∀ c ∈ f₁ ++ f₂ ++ (l₁ ++ l₂), isSpace c = true) ∧
      (nest [] u = some [] ∧ nest [] fs = some [] ∧ nest [] ls = some []) ∧
      (∀ y, Placed (Text.trim first) (')' :: y) fs) ∧ ∀ y, Placed (Text.trim last) (')' :: y) ls := by
  obtain ⟨u, f, l, rfl, hfr, hlr, hfn, hln, hun, hunit⟩ := reads_arguments h hn hs
  obtain ⟨f₁, f₂, fs, hf₁, hf₂, rfl, -, hfs, hfirst⟩ :=
    Placed.of_plain_argument hfr (by simp) hfn fun t ht => hc t (by simp [ht])
  obtain ⟨l₁, l₂, ls, hl₁, hl₂, rfl, -, hls, hlast⟩ :=
    Placed.of_plain_argument hlr (by simp) hln fun t ht => hc t (by simp [ht])
  refine ⟨u, fs, ls, f₁, f₂, l₁, l₂, rfl, hunit, fun c hm => ?_, ⟨hun, hfs, hls⟩, hfirst, hlast⟩
  simp only [List.mem_append] at hm
  rcases hm with (hm | hm) | hm | hm
  · exact hf₁ c hm
  · exact hf₂ c hm
  · exact hl₁ c hm
  · exact hl₂ c hm

/-- In a text without comments no argument leaves a comment open. -/
theorem closed_of_no_comment {a r : Text} {ps : List Piece} (h : Placed a r ps)
    (hc : ∀ t, .region .comment t ∉ ps) : ∀ c ∈ calls a, c.Closed := by
  induction hlen : a.length using Nat.strongRecOn generalizing a r ps with
  | ind m ih =>
    cases hn : firstIn startsCall none ps with
    | none =>
      have ho : opened? a = none := by rw [opened?, h.firstIn_alone, hn]; rfl
      rw [calls_eq_nil ho]
      simp
    | some n =>
      obtain ⟨ms, v, bl, inner, qs, ho, -, -, hopened, rfl, -⟩ := h.call hn
      cases hcl : closingIn ['('] inner with
      | none =>
        rw [calls_unclosed ho hcl]
        intro c hm part hp
        rw [List.mem_singleton.mp hm] at hp
        cases hp
      | some k =>
        obtain ⟨within, hcalls, hwithin, hnone⟩ := calls_closed ho hcl
        obtain ⟨q, rs, rfl, hq, hnest, hrs⟩ := hopened.arguments hcl
        have hcq : ∀ t, .region .comment t ∉ q := fun t ht => hc t (by simp [ht])
        have hcrs : ∀ t, .region .comment t ∉ rs := fun t ht => hc t (by simp [ht])
        rw [hcalls]
        intro c hm
        rcases List.mem_append.mp hm with hm | hm
        · rcases List.mem_cons.mp hm with rfl | hm
          · intro part hp
            rw [Call.parts_some] at hp
            obtain ⟨x, hx, rfl⟩ := List.mem_map.mp hp
            obtain ⟨r', qs, hr', hread, hsub⟩ := reads_of_mem_split hq hnest (by decide) hx
            exact hread.closed_trim hr' fun t ht => hcq t (hsub _ ht)
          · by_cases hs : ∃ unit first last, splitTopLevel (inner.take k) ',' = [unit, first, last]
            · obtain ⟨unit, first, last, hs⟩ := hs
              obtain ⟨u, fs, ls, _, _, _, _, rfl, -, -, -, hfirst, hlast⟩ := placed_arguments hq hnest hcq hs
              rw [hwithin unit first last hs] at hm
              rcases List.mem_append.mp hm with hm | hm
              · exact ih _ (hlen ▸ trim_lt ho hs (by simp)) (hfirst []) (fun t ht => hcq t (by simp [ht])) rfl c hm
              · exact ih _ (hlen ▸ trim_lt ho hs (by simp)) (hlast []) (fun t ht => hcq t (by simp [ht])) rfl c hm
            · rw [hnone hs] at hm
              cases hm
        · exact ih _ (hlen ▸ drop_lt ho) hrs hcrs rfl c hm

/-! ## The pieces of a call -/

/-- A call: the name, blanks, and in parentheses the three arguments with spaces around them. -/
structure CallPieces (qs fs ls : List Piece) (v bl f₁ f₂ l₁ l₂ : Text) (u : List Piece) : Prop where
  pieces : qs = v.map .code ++ (bl.map .code ++ .code '(' :: (u ++ .code ',' :: ((f₁.map .code ++ (fs ++ f₂.map .code)) ++
    .code ',' :: ((l₁.map .code ++ (ls ++ l₂.map .code)) ++ [.code ')']))))
  name : Text.lower v = Text.lower functionName
  blanks : ∀ c ∈ bl, isBlank c = true
  spaces : ∀ c ∈ f₁ ++ f₂ ++ (l₁ ++ l₂), isSpace c = true
  unit : Text.lower (Text.trim (textOf u)) = Text.lower unitName
  nest : nest [] u = some [] ∧ nest [] fs = some [] ∧ SqlDialect.nest [] ls = some []

/-- What is written for a call. -/
def writtenPieces (fs ls : List Piece) : List Piece :=
  opening.map .code ++ (ls ++ (middle.map .code ++ (fs ++ closing.map .code)))

theorem nest_written {fs ls : List Piece} (hf : nest [] fs = some []) (hl : nest [] ls = some []) :
    nest [] (writtenPieces fs ls) = some [] := by
  have hopening : nest [] (opening.map .code) = some ['(', '(', '('] := by decide +kernel
  have hmiddle : nest ['(', '(', '('] (middle.map .code) = some ['(', '(', '('] := by decide +kernel
  have hclosing : nest ['(', '(', '('] (closing.map .code) = some [] := by decide +kernel
  rw [writtenPieces, nest_append, hopening, Option.bind_some, nest_balanced_append hl, nest_append, hmiddle,
    Option.bind_some, nest_balanced_append hf, hclosing]

theorem CallPieces.balanced {qs fs ls u : List Piece} {v bl f₁ f₂ l₁ l₂ : Text}
    (h : CallPieces qs fs ls v bl f₁ f₂ l₁ l₂ u) : SqlDialect.nest [] qs = some [] := by
  have hcomma : ∀ s ps, SqlDialect.nest s (.code ',' :: ps) = SqlDialect.nest s ps := fun s ps => rfl
  have hspaced : ∀ {ps : List Piece} {t₁ t₂ : Text}, SqlDialect.nest [] ps = some [] →
      (∀ c ∈ t₁ ++ t₂, c ∈ f₁ ++ f₂ ++ (l₁ ++ l₂)) →
        SqlDialect.nest [] (t₁.map .code ++ (ps ++ t₂.map .code)) = some [] := by
    intro ps t₁ t₂ hps ht
    have hend := nest_spaces (fun c hc => h.spaces c (ht c (List.mem_append_right _ hc))) [] []
    rw [nest_spaces fun c hc => h.spaces c (ht c (List.mem_append_left _ hc)), nest_balanced_append hps]
    rwa [List.append_nil] at hend
  obtain ⟨hu, hf, hl⟩ := h.nest
  rw [h.pieces, nest_word (isWord_of_lower_eq h.name isWord_functionName),
    nest_spaces fun c hc => isSpace_of_isBlank (h.blanks c hc), nest_open rfl, nest_balanced_append hu, hcomma,
    nest_balanced_append (hspaced hf fun c hc => List.mem_append_left _ hc), hcomma,
    nest_balanced_append (hspaced hl fun c hc => List.mem_append_right _ hc)]
  rfl

/-! ## Names that are left -/

theorem startsBare_before {before : Option Char} (h : before.any isWord = false) (t : Text) :
    startsBare before t = startsBare none t := by
  rw [startsBare, startsBare, startsKeyword_before h, startsCall_before h]

theorem startsBare_append {b : Option Char} {u r : Text} (hu : u ≠ [])
    (hw : ∀ c, r.head? = some c → isWord c = false) (hp : (r.dropWhile isBlank).head? ≠ some '(') :
    startsBare b (u ++ r) = startsBare b u := by
  rw [startsBare, startsBare, startsCall_append hu hw hp, startsKeyword_append isWord_functionName hu (Or.inr hw)]

/-- The name stands neither as a call nor alone. -/
theorem firstIn_keyword_of_bare {before : Option Char} {ps : List Piece} (hb : firstIn startsBare before ps = none)
    (hc : firstIn startsCall before ps = none) : firstIn (startsKeyword functionName) before ps = none := by
  rw [firstIn_eq_none_iff] at hb hc ⊢
  intro ms c ns he
  have h1 := hb ms c ns he
  have h2 := hc ms c ns he
  rw [startsBare, h2, Bool.not_false, Bool.and_true] at h1
  exact h1

/-- Where every name is a call, none stands before the first call. -/
theorem firstIn_keyword_front {ms qs : List Piece} (hb : firstIn startsBare none (ms ++ qs) = none)
    (hc : firstIn startsCall none (ms ++ qs) = some (textOf ms).length)
    (hlast : (textOf ms).getLast?.any isWord = false) : firstIn (startsKeyword functionName) none ms = none := by
  have hbreak : WordBreak (textOf ms) (textOf qs) := Or.inl fun c hc => by
    rw [hc] at hlast
    exact hlast
  rw [firstIn_eq_none_iff] at hb ⊢
  rintro m₁ c m₂ rfl
  have happ : (c :: textOf (m₂ ++ qs)) = (c :: textOf m₂) ++ textOf qs := by simp
  have hsuffix : WordBreak (c :: textOf m₂) (textOf qs) := by
    rw [textOf_append, textOf_cons] at hbreak
    exact hbreak.of_append
  have h1 := hb m₁ c (m₂ ++ qs) (by simp)
  rw [startsBare, happ, startsKeyword_append isWord_functionName (by simp) hsuffix] at h1
  by_cases hcall : startsCall ((textOf m₁).getLast?.or none) (c :: textOf m₂ ++ textOf qs) = true
  · exfalso
    rw [← happ] at hcall
    obtain ⟨n, hn, hf⟩ := firstIn_le hcall
    rw [List.append_assoc, List.cons_append, hf, Option.some.injEq] at hc
    rw [hc, textOf_append, textOf_cons, List.length_append, List.length_append] at hn
    have hone : (Piece.code c).text.length = 1 := rfl
    omega
  · rw [Bool.eq_false_iff.mpr hcall, Bool.not_false, Bool.and_true] at h1
    exact h1

/-- A code character other than a quote, or a literal. -/
def isClean : Piece → Bool
  | .code c => !isQuote c
  | .region kind _ => kind = .literal

theorem not_comment_of_clean {ps : List Piece} (h : ∀ p ∈ ps, isClean p = true) (t : Text) :
    .region .comment t ∉ ps := fun hm => by
  have := h _ hm
  simp [isClean] at this

/-- Clean pieces are read alike in front of any two brackets. -/
theorem reads_of_clean {a r r' : Text} {ps : List Piece} (h : Reads a r ps) (hr : r ≠ [])
    (hclean : ∀ p ∈ ps, isClean p = true) (hj : Apart a r') : Reads a r' ps := by
  refine h.context hr (fun p hp hl => ?_) (Or.inr hj) fun q hq hm => ?_
  · have hmem := List.mem_of_getLast? hp
    cases p with
    | code c => cases hl
    | region kind t =>
      cases kind with
      | literal => cases hl
      | comment => exact absurd hmem (not_comment_of_clean hclean t)
  · have := hclean _ hm
    simp [isClean, hq] at this

/-- What is written for a call whose arguments have no name of the function left. -/
theorem written_clean {front first last after r : Text} {unit : Text} {ms fs ls rs : List Piece}
    (hms : ∀ x, Reads front (opening ++ x) ms) (hl : ∀ x, Reads last (middle ++ x) ls)
    (hf : ∀ x, Reads first (closing ++ x) fs) (ha : Reads after r rs) :
    Reads (front ++ render ⟨unit, first, last⟩ ++ after) r (ms ++ (writtenPieces fs ls ++ rs)) := by
  have hopening : isPlain opening = true := by decide +kernel
  have hmiddle : isPlain middle = true := by decide +kernel
  have hclosing : isPlain closing = true := by decide +kernel
  have h : front ++ render ⟨unit, first, last⟩ ++ after =
      front ++ (opening ++ (last ++ (middle ++ (first ++ (closing ++ after))))) := by simp [render]
  rw [h]
  simp only [writtenPieces, List.append_assoc]
  refine Reads.append ?_ (Reads.append (reads_of_isPlain hopening _) (Reads.append ?_
    (Reads.append (reads_of_isPlain hmiddle _) (Reads.append ?_ (Reads.append (reads_of_isPlain hclosing _) ha)))))
  · simpa using hms _
  · simpa using hl _
  · simpa using hf _

/-- The written form, read as it is meant. -/
theorem reads_render {d : TimeDifference} {fs ls : List Piece} (hf : ∀ x, Reads d.first (closing ++ x) fs)
    (hl : ∀ x, Reads d.last (middle ++ x) ls) (r : Text) : Reads d.render r (writtenPieces fs ls) := by
  have h := @written_clean [] _ _ [] r d.unit [] fs ls [] (fun x => Reads.nil _) hl hf (Reads.nil r)
  simpa using h

/-- The function's name does not stand around the arguments. -/
theorem firstIn_written {ms fs ls rs : List Piece} (hms : firstIn (startsKeyword functionName) none ms = none)
    (hl : firstIn (startsKeyword functionName) none ls = none)
    (hf : firstIn (startsKeyword functionName) none fs = none)
    (hr : firstIn (startsKeyword functionName) none rs = none) :
    firstIn (startsKeyword functionName) none (ms ++ (writtenPieces fs ls ++ rs)) = none := by
  simp only [writtenPieces, List.append_assoc]
  have hhead : ∀ {t : Text} {d : Char} {qs : List Piece}, t.head? = some d → isWord d = false →
      ∀ c, (textOf (t.map .code ++ qs)).head? = some c → isWord c = false := by
    intro t d qs ht hd c hc
    rw [textOf_append, textOf_map_code, List.head?_append, ht, Option.some_or, Option.some.injEq] at hc
    rw [← hc, hd]
  have hlast : ∀ {t : Text} {d : Char}, t.getLast? = some d → isWord d = false →
      ∀ c, (textOf (t.map .code)).getLast? = some c → isWord c = false := by
    intro t d ht hd c hc
    rw [textOf_map_code, ht, Option.some.injEq] at hc
    rw [← hc, hd]
  have hwritten : ∀ {t : Text} {b : Option Char}, t.all startsNoName = true →
      firstIn (startsKeyword functionName) b (t.map .code) = none := by
    intro t b ht
    rw [List.all_eq_true] at ht
    exact firstIn_map_code (fun c hc => startsKeyword_of_startsNoName (ht c hc)) b
  have hbehind : ∀ {t : Text} {d : Char} {b : Option Char} {qs : List Piece}, t.getLast? = some d →
      isWord d = false → firstIn (startsKeyword functionName) none qs = none →
      ∀ b', (textOf (t.map .code)).getLast?.or b = b' → firstIn (startsKeyword functionName) b' qs = none := by
    intro t d b qs ht hd hq b' hb
    rw [textOf_map_code, ht, Option.some_or] at hb
    rw [← hb, firstIn_before (startsKeyword_before (show (some d).any isWord = false from hd)), hq]
  have h2 : opening.getLast? = some '(' := by decide +kernel
  have h4 : middle.getLast? = some '(' := by decide +kernel
  have h6 : closing.getLast? = some ')' := by decide +kernel
  have hopen : isWord '(' = false := by decide
  have hclose : isWord ')' = false := by decide
  refine firstIn_keyword_none isWord_functionName (Or.inr (hhead head?_opening hopen)) hms fun _ _ => ?_
  refine firstIn_keyword_none isWord_functionName (Or.inl (hlast h2 hopen)) (hwritten (by decide +kernel)) ?_
  refine hbehind h2 hopen ?_
  refine firstIn_keyword_none isWord_functionName (Or.inr (hhead head?_middle hclose)) hl fun _ _ => ?_
  refine firstIn_keyword_none isWord_functionName (Or.inl (hlast h4 hopen)) (hwritten (by decide +kernel)) ?_
  refine hbehind h4 hopen ?_
  refine firstIn_keyword_none isWord_functionName (Or.inr (hhead head?_closing hclose)) hf fun _ _ => ?_
  refine firstIn_keyword_none isWord_functionName (Or.inl (hlast h6 hclose)) (hwritten (by decide +kernel)) ?_
  exact hbehind h6 hclose hr

/-- Pieces that are read alike everywhere, among which every name is a call and no space is a word character. -/
structure Regular (ps : List Piece) : Prop where
  clean : ∀ p ∈ ps, isClean p = true
  bare : firstIn startsBare none ps = none
  spaces : ∀ c, .code c ∈ ps → isSpace c = true → isWord c = false

/-- What the pieces `ps` are converted to: the brackets match as before, and no name of the function is left. -/
structure Converted (ps qs : List Piece) : Prop where
  nest : ∀ s t, nest s ps = some t → nest s qs = some t
  clean : ∀ p ∈ qs, isClean p = true
  free : firstIn (startsKeyword functionName) none qs = none

/-- A part that no call reaches out of. -/
theorem Regular.part {xs ps ys : List Piece} (h : Regular (xs ++ (ps ++ ys)))
    (hxs : (textOf xs).getLast?.any isWord = false) (hw : ∀ c, (textOf ys).head? = some c → isWord c = false)
    (hp : ((textOf ys).dropWhile isBlank).head? ≠ some '(') : Regular ps where
  clean p hm := h.clean p (by simp [hm])
  bare := firstIn_part h.bare (fun t => startsBare_before (by rwa [Option.or_none]) t)
    fun b u hu => startsBare_append hu hw hp
  spaces c hm := h.spaces c (by simp [hm])

/-- Behind spaces and a character that is neither part of a word nor a parenthesis no name goes on. -/
theorem spaces_then {s : Text} (hs : ∀ c ∈ s, isSpace c = true) (hw : ∀ c ∈ s, isWord c = false) {d : Char}
    (hd : isWord d = false) (hb : isBlank d = false) (hp : d ≠ '(') (x : Text) :
    (∀ c, (s ++ d :: x).head? = some c → isWord c = false) ∧ ((s ++ d :: x).dropWhile isBlank).head? ≠ some '(' := by
  induction s with
  | nil =>
    refine ⟨fun c hc => by rw [← Option.some.inj hc, hd], ?_⟩
    rw [List.nil_append, List.dropWhile_cons_of_neg (by simp [hb])]
    simpa using hp
  | cons c s ih =>
    refine ⟨fun e he => by rw [← Option.some.inj he, hw c List.mem_cons_self], ?_⟩
    rw [List.cons_append, List.dropWhile_cons]
    split
    · exact (ih (fun e he => hs e (List.mem_cons_of_mem _ he)) fun e he => hw e (List.mem_cons_of_mem _ he)).2
    · intro e
      have := hs c List.mem_cons_self
      rw [Option.some.inj e] at this
      cases this

/-- An argument with the spaces around it, between two separators. -/
theorem Regular.argument {xs ps ys : List Piece} {s₁ s₂ : Text} {c d : Char}
    (h : Regular (xs ++ .code c :: (s₁.map .code ++ (ps ++ (s₂.map .code ++ .code d :: ys)))))
    (hs₁ : ∀ e ∈ s₁, isSpace e = true) (hs₂ : ∀ e ∈ s₂, isSpace e = true) (hc : isWord c = false)
    (hd : isWord d = false) (hb : isBlank d = false) (hp : d ≠ '(') : Regular ps := by
  have hw₁ : ∀ e ∈ s₁, isWord e = false := fun e he => h.spaces e (by simp [he]) (hs₁ e he)
  have hw₂ : ∀ e ∈ s₂, isWord e = false := fun e he => h.spaces e (by simp [he]) (hs₂ e he)
  obtain ⟨h1, h2⟩ := spaces_then hs₂ hw₂ hd hb hp (textOf ys)
  have ht : textOf (s₂.map .code ++ .code d :: ys) = s₂ ++ d :: textOf ys := by
    rw [textOf_append, textOf_map_code]
    rfl
  have happ : xs ++ .code c :: (s₁.map .code ++ (ps ++ (s₂.map .code ++ .code d :: ys))) =
      (xs ++ .code c :: s₁.map .code) ++ (ps ++ (s₂.map .code ++ .code d :: ys)) := by simp
  rw [happ] at h
  refine h.part ?_ (by rwa [ht]) (by rwa [ht])
  have hlast : (textOf (xs ++ .code c :: s₁.map .code)).getLast? = some (s₁.getLast?.getD c) := by
    rw [textOf_append, textOf_cons, textOf_map_code, List.getLast?_append]
    simp [Piece.text, List.getLast?_cons]
  rw [hlast, Option.any_some]
  cases hl : s₁.getLast? with
  | none => exact hc
  | some e => exact hw₁ e (List.mem_of_getLast? hl)

/-- What stands behind a call. -/
theorem Regular.behind {xs ps : List Piece} {c : Char} (h : Regular (xs ++ .code c :: ps)) (hc : isWord c = false) :
    Regular ps := by
  have happ : xs ++ .code c :: ps = (xs ++ [.code c]) ++ (ps ++ []) := by simp
  rw [happ] at h
  exact h.part (by simp [Piece.text, hc]) (by simp) (by simp)

/-- The timestamps of a call, and what stands behind it. -/
theorem CallPieces.regular {ms qs fs ls rs u : List Piece} {v bl f₁ f₂ l₁ l₂ : Text}
    (h : CallPieces qs fs ls v bl f₁ f₂ l₁ l₂ u) (hreg : Regular (ms ++ (qs ++ rs))) :
    Regular fs ∧ Regular ls ∧ Regular rs := by
  have hf₁ : ∀ c ∈ f₁, isSpace c = true := fun c hc => h.spaces c (by simp [hc])
  have hf₂ : ∀ c ∈ f₂, isSpace c = true := fun c hc => h.spaces c (by simp [hc])
  have hl₁ : ∀ c ∈ l₁, isSpace c = true := fun c hc => h.spaces c (by simp [hc])
  have hl₂ : ∀ c ∈ l₂, isSpace c = true := fun c hc => h.spaces c (by simp [hc])
  rw [h.pieces] at hreg
  refine ⟨?_, ?_, ?_⟩
  · refine @Regular.argument (ms ++ (v.map .code ++ (bl.map .code ++ .code '(' :: u))) fs
      (l₁.map .code ++ (ls ++ (l₂.map .code ++ .code ')' :: rs))) f₁ f₂ ',' ',' ?_ hf₁ hf₂ (by decide) (by decide)
      (by decide) (by decide)
    simpa only [List.append_assoc, List.cons_append, List.nil_append] using hreg
  · refine @Regular.argument (ms ++ (v.map .code ++ (bl.map .code ++ .code '(' :: (u ++ .code ',' ::
      (f₁.map .code ++ (fs ++ f₂.map .code)))))) ls rs l₁ l₂ ',' ')' ?_ hl₁ hl₂ (by decide) (by decide)
      (by decide) (by decide)
    simpa only [List.append_assoc, List.cons_append, List.nil_append] using hreg
  · refine @Regular.behind (ms ++ (v.map .code ++ (bl.map .code ++ .code '(' :: (u ++ .code ',' ::
      (f₁.map .code ++ (fs ++ f₂.map .code) ++ .code ',' :: (l₁.map .code ++ (ls ++ l₂.map .code))))))) rs ')' ?_
      (by decide)
    simpa only [List.append_assoc, List.cons_append, List.nil_append] using hreg

/-- What is written for the first call of a text whose timestamps are converted. -/
theorem converted_call {ms qs fs ls rs fs' ls' rs' u : List Piece} {v bl f₁ f₂ l₁ l₂ : Text}
    (h : CallPieces qs fs ls v bl f₁ f₂ l₁ l₂ u) (hfront : firstIn (startsKeyword functionName) none ms = none)
    (hms : ∀ p ∈ ms, isClean p = true) (hf : Converted fs fs') (hl : Converted ls ls') (hr : Converted rs rs') :
    Converted (ms ++ (qs ++ rs)) (ms ++ (writtenPieces fs' ls' ++ rs')) where
  nest s t hn := by
    have hwritten := nest_written (hf.nest _ _ h.nest.2.1) (hl.nest _ _ h.nest.2.2)
    rw [nest_append] at hn ⊢
    obtain ⟨s₁, hs₁, hn⟩ := Option.bind_eq_some_iff.mp hn
    rw [nest_balanced_append h.balanced] at hn
    rw [hs₁, Option.bind_some, nest_balanced_append hwritten]
    exact hr.nest s₁ t hn
  clean p hm := by
    have hplain : ∀ {t : Text}, t.all (fun c => !isQuote c) = true → ∀ p ∈ t.map Piece.code, isClean p = true := by
      intro t ht p hp
      obtain ⟨c, hc, rfl⟩ := List.mem_map.mp hp
      exact List.all_eq_true.mp ht c hc
    simp only [writtenPieces, List.mem_append] at hm
    rcases hm with hm | (hm | hm | hm | hm | hm) | hm
    · exact hms p hm
    · exact hplain (by decide +kernel) p hm
    · exact hl.clean p hm
    · exact hplain (by decide +kernel) p hm
    · exact hf.clean p hm
    · exact hplain (by decide +kernel) p hm
    · exact hr.clean p hm
  free := firstIn_written hfront hl.free hf.free hr.free

/-- **No name is left.** A regular text is converted to one without the function's name. -/
theorem bottomUp_converted {a r : Text} {ps : List Piece} (h : Placed a r ps) (hreg : Regular ps)
    (hw : ∀ c ∈ calls a, c.WellFormed) : ∃ qs, Placed (bottomUp a) r qs ∧ Converted ps qs := by
  induction hlen : a.length using Nat.strongRecOn generalizing a r ps with
  | ind m ih =>
    cases hn : firstIn startsCall none ps with
    | none =>
      have ho : opened? a = none := by rw [opened?, h.firstIn_alone, hn]; rfl
      rw [bottomUp_eq_self ho]
      exact ⟨ps, h, fun _ _ => id, hreg.clean, firstIn_keyword_of_bare hreg.bare hn⟩
    | some n =>
      obtain ⟨ms, v, bl, inner, qs, ho, -, -, hopened, rfl, rfl, hend, hv, hbl⟩ := h.call hn
      have hfront := firstIn_keyword_front hreg.bare hn hend
      obtain ⟨k, unit, first, last, hcl, hs, hu, hcalls⟩ := calls_wellFormed ho hw
      rw [hcalls] at hw
      obtain ⟨q, rs, rfl, hq, hnest, hrs⟩ := hopened.arguments hcl
      obtain ⟨u, fs, ls, f₁, f₂, l₁, l₂, rfl, rfl, hspaces, hbal, hfirst, hlast⟩ :=
        placed_arguments hq hnest (fun t ht => not_comment_of_clean hreg.clean t (by simp [ht])) hs
      obtain ⟨qs, hcall, hps⟩ : ∃ qs, CallPieces qs fs ls v bl f₁ f₂ l₁ l₂ u ∧
          ms ++ (v.map .code ++ (bl.map .code ++ .code '(' :: (u ++ .code ',' :: ((f₁.map .code ++
            (fs ++ f₂.map .code)) ++ .code ',' :: (l₁.map .code ++ (ls ++ l₂.map .code))) ++ .code ')' :: rs))) =
              ms ++ (qs ++ rs) :=
        ⟨_, ⟨rfl, hv, hbl, hspaces, by simpa [Text.same] using hu, hbal⟩, by simp⟩
      rw [hps] at h hreg ⊢
      -- the two timestamps, and what stands behind the call
      obtain ⟨hregf, hregl, hregr⟩ := hcall.regular hreg
      obtain ⟨fs', hf', hfc⟩ :=
        ih _ (hlen ▸ trim_lt ho hs (by simp)) (hfirst []) hregf (fun c hc => hw c (by simp [hc])) rfl
      obtain ⟨ls', hl', hlc⟩ :=
        ih _ (hlen ▸ trim_lt ho hs (by simp)) (hlast []) hregl (fun c hc => hw c (by simp [hc])) rfl
      obtain ⟨rs', hr', hrc⟩ :=
        ih _ (hlen ▸ drop_lt ho) hrs hregr (fun c hc => hw c (List.mem_append_right _ hc)) rfl
      have hfn := hfc.nest [] [] hbal.2.1
      have hln := hlc.nest [] [] hbal.2.2
      have hms : ∀ p ∈ ms, isClean p = true := fun p hp => hreg.clean p (List.mem_append_left _ hp)
      have hreads : ∀ {t : Text}, Reads (bottomUp (inner.drop (k + 1))) t rs' →
          Reads (bottomUp a) t (ms ++ (writtenPieces fs' ls' ++ rs')) := fun ht => by
        rw [bottomUp_call ho hcl hs]
        refine written_clean (fun x => ?_) (fun x => ?_) (fun x => ?_) ht
        · exact reads_of_clean h.reads.take (by rw [hcall.pieces]; simp [Piece.text]) hms
            (apart_of_head (head?_append_some head?_opening x) (by decide) (by decide) (by decide) _)
        · exact reads_closing hl'.reads hln (head?_append_some head?_middle x)
        · exact reads_closing hf'.reads hfn (head?_append_some head?_closing x)
      have hc := converted_call hcall hfront hms hfc hlc hrc
      refine ⟨_, ⟨hreads hr'.reads, fun hr => ⟨hreads (hr'.settled hr).1, ?_, (hr'.settled hr).2.2⟩⟩, hc⟩
      obtain ⟨s, hs⟩ := (h.settled hr).2.1
      exact ⟨s, hc.nest s [] hs⟩

/-! ## The conversion -/

/-- A space of ASCII is no word character. -/
theorem isWord_of_isSpace {c : Char} (h : isSpace c = true) (hc : c.toNat < 128) : isWord c = false := by
  rw [Bool.eq_false_iff, ne_eq, isWord_iff]
  simp only [isSpace, Bool.or_eq_true, Bool.and_eq_true, decide_eq_true_eq] at h
  omega

/-- **The conversion of a text without comments.** In a text whose quotes all stand in literals, it succeeds exactly
if the calls are well-formed at every depth, and then it is the translation from the inside out. If every name is a
call and all spaces are of ASCII, none is left. -/
theorem convert_of_no_comment {text : Text} (hclean : ∀ p ∈ pieces text, isClean p = true) :
    ((∃ out, convert text = .ok out) ↔ ∀ c ∈ calls text, c.WellFormed) ∧
      ∀ out, convert text = .ok out → out = bottomUp text ∧
        (firstIn startsBare none (pieces text) = none → (∀ c ∈ text, isSpace c = true → c.toNat < 128) →
          findKeyword functionName none out = none) := by
  have hclosed := closed_of_no_comment (Placed.whole text) (not_comment_of_clean hclean)
  obtain ⟨hok, herror⟩ := convert_eq_bottomUp hclosed
  have hiff : (∃ out, convert text = .ok out) ↔ ∀ c ∈ calls text, c.WellFormed := by
    refine ⟨fun ⟨out, h⟩ => Classical.byContradiction fun hno => ?_, fun hw => ⟨_, hok hw⟩⟩
    simp only [Classical.not_forall, exists_prop] at hno
    obtain ⟨e, he⟩ := herror hno
    rw [h] at he
    cases he
  refine ⟨hiff, fun out h => ?_⟩
  have hw := hiff.mp ⟨out, h⟩
  rw [hok hw, Except.ok.injEq] at h
  refine ⟨h.symm, fun hbare hspace => ?_⟩
  have hcode : ∀ c, .code c ∈ pieces text → c ∈ text := fun c hc => by
    rw [← textOf_pieces text]
    exact List.mem_flatMap.mpr ⟨_, hc, List.mem_singleton_self c⟩
  have hreg : Regular (pieces text) := ⟨hclean, hbare, fun c hc hs => isWord_of_isSpace hs (hspace c (hcode c hc) hs)⟩
  obtain ⟨qs, hqs, hc⟩ := bottomUp_converted (Placed.whole text) hreg hw
  have hread := hqs.reads
  rw [Reads, List.append_nil, pieces_nil, List.append_nil] at hread
  rw [← h, findKeyword_eq_firstIn, hread]
  exact hc.free

/-- A call within a call. -/
theorem convert_call_in_call :
    convert "x + timestampdiff(second, 'a,', timestampdiff (SECOND, b, f(c)))".toList =
      .ok "x + ((julianday(((julianday(f(c)) - julianday(b)) * 86400)) - julianday('a,')) * 86400)".toList ∧
    (∀ c ∈ calls "x + timestampdiff(second, 'a,', timestampdiff (SECOND, b, f(c)))".toList, c.WellFormed) ∧
    findKeyword functionName none
      "x + ((julianday(((julianday(f(c)) - julianday(b)) * 86400)) - julianday('a,')) * 86400)".toList = none := by
  have hout : convert "x + timestampdiff(second, 'a,', timestampdiff (SECOND, b, f(c)))".toList =
      .ok "x + ((julianday(((julianday(f(c)) - julianday(b)) * 86400)) - julianday('a,')) * 86400)".toList :=
    eq_ok_of_toOption (by decide +kernel)
  obtain ⟨hiff, hconvert⟩ := @convert_of_no_comment
    "x + timestampdiff(second, 'a,', timestampdiff (SECOND, b, f(c)))".toList (by decide +kernel)
  exact ⟨hout, hiff.mp ⟨_, hout⟩, (hconvert _ hout).2 (by decide +kernel) (by decide +kernel)⟩

/-- An ideographic space is a word character that trimming takes away: what was part of a longer name is the
function's name afterwards, although every name was a call before. -/
theorem keyword_left_by_wide_space :
    (∀ p ∈ pieces "timestampdiff(second,\u3000timestampdiff, c)".toList, isClean p = true) ∧
      firstIn startsBare none (pieces "timestampdiff(second,\u3000timestampdiff, c)".toList) = none ∧
      convert "timestampdiff(second,\u3000timestampdiff, c)".toList =
        .ok "((julianday(c) - julianday(timestampdiff)) * 86400)".toList ∧
      findKeyword functionName none "((julianday(c) - julianday(timestampdiff)) * 86400)".toList = some 27 :=
  ⟨by decide +kernel, by decide +kernel, eq_ok_of_toOption (by decide +kernel), by decide +kernel⟩

end SqlDialect.TimeDifference
